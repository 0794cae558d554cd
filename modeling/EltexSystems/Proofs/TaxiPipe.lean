import EltexSystems.Proofs.TaxiStdin
import EltexSystems.TaxiPipe

/-!
# The end of a piped script

The lines the loop executes and those left are what `fgets` gives of the bytes received, in order
(`executed_pending`).  Once the writer is gone a step leaves the loop, or leaves as it was whether
an `exit` or `quit` is read while the pipe still holds a byte (`quitAhead_moves`); where one is,
every step uses up some of the input (`left_moves`).  So the loop ends exactly then (`ends_iff`),
and with the pipe empty it calls `poll` for ever (`spins`), whatever is left in the buffer of
`stdio`.
-/

namespace EltexSystems

open CStr

section Iterations

variable {c : Cli} {e : LoopEnv}

theorem LoopEnv.succeeds_iff : e.succeeds = true ↔
    e.calloc = true ∧ e.spawn ≠ none ∧ e.realloc = true := by
  rw [succeeds, Bool.and_eq_true, Bool.and_eq_true, and_assoc, Option.isSome_iff_ne_none]

theorem runCommand_succeeds (h : e.succeeds = true) (cmd : CliCommand) :
    ∃ c', runCommand c e cmd = some c' := by
  cases cmd with
  | createDriver =>
    obtain ⟨-, hspawn, hrealloc⟩ := LoopEnv.succeeds_iff.mp h
    obtain ⟨⟨pid, fd⟩, hs⟩ := Option.ne_none_iff_exists'.mp hspawn
    simp only [runCommand, cmdCreateDriver, driversPush, hs, hrealloc, if_true]
    split_ifs <;> exact ⟨_, rfl⟩
  | _ => exact ⟨_, rfl⟩

/-- Where the loop goes from a line. -/
def afterLine (line : List UInt8) : StdinPc := if parseLine line = .quit then .exited else .poll

theorem flow_reads (h : e.succeeds = true) {line : List UInt8} (hr : e.reads line = true) :
    (mainIter c e).flow = if parseLine line = .quit then .shutdown else .again := by
  obtain ⟨hcalloc, -, -⟩ := LoopEnv.succeeds_iff.mp h
  obtain ⟨-, ⟨revents, hpoll, hin⟩, hline⟩ := LoopEnv.reads_iff.mp hr
  obtain ⟨c', hc'⟩ := runCommand_succeeds
    (c := (reapChildren c e.reaped).emit [.print (ascii "> ")]) h (parseLine line)
  unfold mainIter afterPoll
  simp only [hcalloc, hpoll, hin, hline, hc', Bool.not_true, if_true, Bool.false_eq_true, if_false]
  split_ifs
  · rfl
  · rfl

theorem flow_pollsEmpty (h : e.succeeds = true) {closed : Bool}
    (hp : e.pollsEmpty closed = true) : (mainIter c e).flow = .again := by
  obtain ⟨hcalloc, -, -⟩ := LoopEnv.succeeds_iff.mp h
  unfold LoopEnv.pollsEmpty at hp
  split at hp
  · rename_i revents hpoll
    rw [Bool.and_eq_true, Bool.not_eq_true'] at hp
    unfold mainIter afterPoll
    simp only [hcalloc, hpoll, hp.1, Bool.not_true, Bool.false_eq_true, if_false]
  · cases hp

end Iterations

namespace Stdin

variable {bufSize : ℕ} {s t : Stdin}

/-- What a step can do where standard input is a pipe. -/
inductive PipeMoves (bufSize : ℕ) (s : Stdin) : Stdin → Prop where
  | arrive (chunk : List UInt8) : s.eof = false →
      PipeMoves bufSize s { s with kernel := s.kernel ++ chunk, received := s.received ++ chunk }
  | close : s.eof = false → PipeMoves bufSize s { s with eof := true }
  | idle (c : Cli) : s.pc = .poll → s.kernel = [] →
      PipeMoves bufSize s { s with cli := c, pc := .poll }
  | ready : s.pc = .poll → s.kernel ≠ [] → PipeMoves bufSize s { s with pc := .fgets }
  | refill : s.pc = .fgets → s.stdio = [] → s.kernel ≠ [] →
      PipeMoves bufSize s
        { s with stdio := s.kernel.take bufSize, kernel := s.kernel.drop bufSize }
  | byte (b : UInt8) (rest : List UInt8) : s.pc = .fgets → s.stdio = b :: rest →
      ¬ (b = LF ∨ s.acc.length + 1 = MSGSZ - 1) →
      PipeMoves bufSize s { s with stdio := rest, acc := s.acc ++ [b] }
  | line (c : Cli) (b : UInt8) (rest : List UInt8) : s.pc = .fgets → s.stdio = b :: rest →
      b = LF ∨ s.acc.length + 1 = MSGSZ - 1 →
      PipeMoves bufSize s
        { s with
          cli := c, pc := afterLine (s.acc ++ [b]), stdio := rest, acc := [],
          executed := s.executed ++ [s.acc ++ [b]] }
  | rest (c : Cli) : s.eof = true → s.pc = .fgets → s.stdio = [] → s.kernel = [] → s.acc ≠ [] →
      PipeMoves bufSize s
        { s with cli := c, pc := afterLine s.acc, acc := [], executed := s.executed ++ [s.acc] }
  | exit : s.eof = true → s.pc = .fgets → s.stdio = [] → s.kernel = [] → s.acc = [] →
      PipeMoves bufSize s { s with pc := .exited }

theorem execute_eq {line : List UInt8} {e : LoopEnv} (h : e.succeeds = true)
    (hr : e.reads line = true) :
    s.execute line e = { s with
      cli := (mainIter s.cli e).cli, pc := afterLine line, acc := [],
      executed := s.executed ++ [line] } := by
  unfold execute goOn afterLine
  rw [flow_reads h hr]
  by_cases hq : parseLine line = .quit
  · simp only [if_pos hq, reduceCtorEq, if_false]
  · simp only [if_neg hq, if_true]

theorem take_min_length {α : Type*} (n : ℕ) (l : List α) :
    l.take (min n l.length) = l.take n ∧ l.drop (min n l.length) = l.drop n := by
  rcases Nat.le_total n l.length with h | h
  · rw [min_eq_left h]
    exact ⟨rfl, rfl⟩
  · rw [min_eq_right h, List.take_of_length_le h, List.drop_of_length_le h, List.take_length,
      List.drop_length]
    exact ⟨rfl, rfl⟩

theorem pipeMoves_of_pipeNext {l : StdinLabel} (h : s.pipeNext bufSize l = some t) :
    PipeMoves bufSize s t := by
  cases l with
  | arrive chunk =>
    simp only [pipeNext, next] at h
    split_ifs at h with heof
    obtain rfl := Option.some.inj h
    exact .arrive chunk (by simpa using heof)
  | close =>
    simp only [pipeNext, next] at h
    split_ifs at h with heof
    obtain rfl := Option.some.inj h
    exact .close (by simpa using heof)
  | idle e =>
    simp only [pipeNext] at h
    split_ifs at h with hc
    obtain ⟨hpc, hkernel, he, hp⟩ := hc
    obtain rfl := Option.some.inj h
    unfold goOn
    rw [flow_pollsEmpty he hp]
    exact .idle _ hpc hkernel
  | ready =>
    simp only [pipeNext, next] at h
    split_ifs at h with hk hc
    obtain rfl := Option.some.inj h
    exact .ready hc.1 hk
  | refill k =>
    simp only [pipeNext, next] at h
    split_ifs at h with hk hc
    obtain ⟨hpc, hstdio, hpos, -, hle⟩ := hc
    obtain rfl := Option.some.inj h
    rw [hk, (take_min_length bufSize s.kernel).1, (take_min_length bufSize s.kernel).2]
    exact .refill hpc hstdio (List.ne_nil_of_length_pos (by omega))
  | byte e =>
    simp only [pipeNext] at h
    split_ifs at h with he
    rcases hpc : s.pc with _ | _ | _ <;> rcases hstdio : s.stdio with _ | ⟨b, rest⟩ <;>
      simp only [next, hpc, hstdio, reduceCtorEq] at h
    unfold takeByte at h
    split_ifs at h with hline hreads
    · obtain rfl := Option.some.inj h
      rw [execute_eq he hreads]
      exact .line _ b rest hpc hstdio hline
    · obtain rfl := Option.some.inj h
      exact .byte b rest hpc hstdio hline
  | endOfInput e =>
    simp only [pipeNext, next] at h
    split_ifs at h with he hc
    obtain ⟨hpc, hstdio, hkernel, heof⟩ := hc
    unfold atEnd at h
    split_ifs at h with hacc hreads
    · obtain rfl := Option.some.inj h
      exact .exit heof hpc hstdio hkernel hacc
    · obtain rfl := Option.some.inj h
      rw [execute_eq he hreads]
      exact .rest _ heof hpc hstdio hkernel hacc

end Stdin

section Lines

theorem readAhead_zero {bufSize : ℕ} (hbuf : 0 < bufSize) : readAhead bufSize 0 = 0 := by
  rw [readAhead, Nat.zero_add, Nat.div_eq_of_lt (by omega), Nat.zero_mul]

/-- A read takes as much as is counted for it. -/
theorem readAhead_lt_iff {bufSize n k : ℕ} (hbuf : 0 < bufSize) (hn : 0 < n) :
    readAhead bufSize n < k ↔ readAhead bufSize (n - min bufSize k) < k - min bufSize k := by
  have hstep : readAhead bufSize n = readAhead bufSize (n - bufSize) + bufSize := by
    unfold readAhead
    rcases Nat.le_total n bufSize with h | h
    · rw [Nat.sub_eq_zero_of_le h, Nat.zero_add,
        Nat.div_eq_of_lt (by omega : bufSize - 1 < bufSize),
        show n + bufSize - 1 = n - 1 + bufSize by omega, Nat.add_div_right _ hbuf,
        Nat.div_eq_of_lt (by omega), Nat.succ_mul]
    · rw [show n + bufSize - 1 = n - bufSize + bufSize - 1 + bufSize by omega,
        Nat.add_div_right _ hbuf, Nat.succ_mul]
  rw [hstep]
  rcases Nat.le_total bufSize k with h | h
  · rw [min_eq_left h]
    omega
  · rw [min_eq_right h]
    omega

/-- A line being read gets the next byte. -/
theorem length_lt_of_fgetsLines : ∀ {l acc p : List UInt8} {ps : List (List UInt8)}, l ≠ [] →
    fgetsLines acc l = p :: ps → acc.length < p.length
  | [], _, _, _, h, _ => absurd rfl h
  | b :: l, acc, p, ps, _, h => by
    have hlen : acc.length < (acc ++ [b]).length := by simp
    rw [fgetsLines] at h
    split_ifs at h with hb
    · rw [← (List.cons.inj h).1]
      exact hlen
    · rcases eq_or_ne l [] with rfl | hl
      · rw [fgetsLines, if_neg (by simp)] at h
        rw [← (List.cons.inj h).1]
        exact hlen
      · exact hlen.trans (length_lt_of_fgetsLines hl h)

end Lines

namespace Stdin

variable {bufSize : ℕ} {s t : Stdin}

/-- Whatever is still written, the lines of it all are those executed and what becomes of the
rest. -/
def InOrder (s : Stdin) : Prop :=
  ∀ l, (s.eof = true → l = []) →
    fgetsLines [] (s.received ++ l) = s.executed ++ fgetsLines s.acc (s.stdio ++ s.kernel ++ l)

theorem inOrder_moves (h : InOrder s) (hm : PipeMoves bufSize s t) : InOrder t := by
  intro l hl
  cases hm with
  | arrive chunk heof =>
    have := h (chunk ++ l) fun heof' => absurd (heof'.symm.trans heof) (by decide)
    simpa only [List.append_assoc] using this
  | close heof =>
    rw [hl rfl]
    exact h [] fun _ => rfl
  | idle => exact h l hl
  | ready => exact h l hl
  | refill hpc hstdio hk =>
    have := h l hl
    rw [hstdio, List.nil_append] at this
    rw [this, List.take_append_drop]
  | byte b rest hpc hstdio hline =>
    have := h l hl
    rw [hstdio, List.cons_append, List.cons_append, fgetsLines, if_neg hline] at this
    exact this
  | line c b rest hpc hstdio hline =>
    have := h l hl
    rw [hstdio, List.cons_append, List.cons_append, fgetsLines, if_pos hline] at this
    rw [this]
    simp only [List.append_assoc, List.singleton_append]
  | rest c heof hpc hstdio hk hne =>
    have := h l hl
    rw [hl heof, hstdio, hk, List.append_nil, List.append_nil, List.append_nil, fgetsLines,
      if_neg hne] at this
    rw [hl heof, List.append_nil, this, hstdio, hk]
    simp [fgetsLines]
  | exit => exact h l hl

/-- The lines executed and those left are what `fgets` gives of the bytes received. -/
theorem executed_pending {tr : List (Stdin × StdinLabel)} (h : (pipeLts bufSize).Run tr s) :
    s.executed ++ s.pending = fgetsLines [] s.received := by
  have hinv := h.inv (I := InOrder) (fun s hs => by obtain rfl := hs; exact fun l _ => rfl)
    fun _ _ _ hs hst => inOrder_moves hs (pipeMoves_of_pipeNext hst)
  have := hinv [] fun _ => rfl
  rw [List.append_nil, List.append_nil] at this
  exact this.symm

/-- A line is being read only by `fgets`, which has begun one or has a byte for it. -/
structure PipeInv (s : Stdin) : Prop where
  acc_nil : s.pc ≠ .fgets → s.acc = []
  fed : s.pc = .fgets → s.acc ≠ [] ∨ s.stdio ≠ [] ∨ s.kernel ≠ []

theorem afterLine_ne_fgets (line : List UInt8) : afterLine line ≠ .fgets := by
  unfold afterLine
  split_ifs <;> decide

theorem pipeInv_moves (hinv : PipeInv s) (h : PipeMoves bufSize s t) (hbuf : 0 < bufSize) :
    PipeInv t := by
  obtain ⟨hacc, hfed⟩ := hinv
  cases h with
  | arrive chunk heof =>
    refine ⟨hacc, fun hpc => (hfed hpc).imp_right fun h => h.imp_right fun hk hnil => ?_⟩
    exact hk (List.append_eq_nil_iff.mp hnil).1
  | close heof => exact ⟨hacc, hfed⟩
  | idle c hpc hk => exact ⟨fun _ => hacc (by rw [hpc]; decide), fun h => absurd h (by simp)⟩
  | ready hpc hk => exact ⟨fun h => absurd rfl h, fun _ => .inr (.inr hk)⟩
  | refill hpc hstdio hk =>
    refine ⟨fun h => absurd hpc h, fun _ => .inr (.inl fun hnil => ?_)⟩
    exact (List.take_eq_nil_iff.mp hnil).elim hbuf.ne' hk
  | byte b rest hpc hstdio hline => exact ⟨fun h => absurd hpc h, fun _ => .inl (by simp)⟩
  | line c b rest hpc hstdio hline => exact ⟨fun _ => rfl, fun h => absurd h (afterLine_ne_fgets _)⟩
  | rest c _ hpc hstdio hk hne => exact ⟨fun _ => rfl, fun h => absurd h (afterLine_ne_fgets _)⟩
  | exit _ hpc hstdio hk hnil => exact ⟨fun _ => hnil, fun h => absurd h (by simp)⟩

/-- A line executed leaves the condition on those behind it, or is the one that ends the loop. -/
theorem quitAhead_executed {p : List UInt8} (hpc : s.pc = .fgets)
    (hpending : s.pending = p :: t.pending) (htpc : t.pc = afterLine p) (htacc : t.acc = [])
    (hkernel : t.kernel = s.kernel)
    (hlen : p.length ≤ s.acc.length + s.stdio.length ∧
      s.acc.length + s.stdio.length - p.length = t.stdio.length) :
    t.pc = .exited ∨ t.QuitAhead bufSize ↔ s.QuitAhead bufSize := by
  have hpos : ∀ before : List (List UInt8),
      (p :: before).flatten.length - s.acc.length - s.stdio.length
        = before.flatten.length - t.acc.length - t.stdio.length := by
    intro before
    rw [List.flatten_cons, List.length_append, htacc, List.length_nil]
    omega
  by_cases hq : parseLine p = .quit
  · have hexit : t.pc = .exited := by rw [htpc, afterLine, if_pos hq]
    exact iff_of_true (.inl hexit) ⟨[], p, t.pending, hpending, hq, .inl ⟨hpc, rfl⟩⟩
  · have hpoll : t.pc = .poll := by rw [htpc, afterLine, if_neg hq]
    have hne : t.pc ≠ .exited ∧ t.pc ≠ .fgets := by rw [hpoll]; decide
    rw [or_iff_right hne.1]
    constructor
    · rintro ⟨before, q, after, hlist, hquit, htime⟩
      refine ⟨p :: before, q, after, by rw [hpending, hlist]; rfl, hquit, .inr ?_⟩
      rw [hpos, ← hkernel]
      exact htime.resolve_left fun h => hne.2 h.1
    · rintro ⟨before, q, after, hlist, hquit, htime⟩
      rw [hpending] at hlist
      rcases before with _ | ⟨p', before⟩
      · obtain rfl := (List.cons.inj hlist).1
        exact absurd hquit hq
      · obtain ⟨rfl, htail⟩ := List.cons.inj hlist
        refine ⟨before, q, after, htail, hquit, .inr ?_⟩
        rw [hkernel, ← hpos]
        exact htime.resolve_left fun h => List.cons_ne_nil _ _ h.2

theorem quitAhead_refill (hbuf : 0 < bufSize) (hpc : s.pc = .fgets) (hstdio : s.stdio = [])
    (hkernel : s.kernel ≠ []) :
    QuitAhead bufSize { s with stdio := s.kernel.take bufSize, kernel := s.kernel.drop bufSize } ↔
      s.QuitAhead bufSize := by
  unfold QuitAhead pending
  simp only [hstdio, List.nil_append, List.take_append_drop, List.length_take, List.length_drop,
    List.length_nil, Nat.sub_zero]
  refine exists_congr fun before => exists_congr fun p => exists_congr fun after =>
    and_congr_right fun hlist => and_congr_right fun _ => ?_
  rcases before with _ | ⟨q, before⟩
  · exact iff_of_true (.inl ⟨hpc, rfl⟩) (.inl ⟨hpc, rfl⟩)
  · have hlong := length_lt_of_fgetsLines hkernel hlist
    have hpos : 0 < (q :: before).flatten.length - s.acc.length := by
      rw [List.flatten_cons, List.length_append]
      omega
    refine or_congr_right ?_
    rw [show s.kernel.length - bufSize = s.kernel.length - min bufSize s.kernel.length by omega]
    exact (readAhead_lt_iff hbuf hpos).symm

/-- With the writer gone a step leaves the loop or keeps the condition as it was. -/
theorem quitAhead_moves (hbuf : 0 < bufSize) (hinv : PipeInv s) (heof : s.eof = true)
    (h : PipeMoves bufSize s t) : t.pc = .exited ∨ t.QuitAhead bufSize ↔ s.QuitAhead bufSize := by
  cases h with
  | arrive chunk h => exact absurd (heof.symm.trans h) (by decide)
  | close h => exact absurd (heof.symm.trans h) (by decide)
  | idle c hpc hk =>
    unfold QuitAhead pending
    rw [hpc]
    simp
  | ready hpc hk =>
    unfold QuitAhead pending
    simp only [hpc, reduceCtorEq, false_or, false_and, true_and]
    refine exists_congr fun before => exists_congr fun p => exists_congr fun after =>
      and_congr_right fun _ => and_congr_right fun _ => or_iff_right_of_imp ?_
    rintro rfl
    rw [List.flatten_nil, List.length_nil, Nat.zero_sub, Nat.zero_sub, readAhead_zero hbuf]
    exact List.length_pos_iff.mpr hk
  | refill hpc hstdio hk =>
    rw [quitAhead_refill hbuf hpc hstdio hk]
    exact or_iff_right (by rw [hpc]; decide)
  | byte b rest hpc hstdio hline =>
    unfold QuitAhead pending
    simp only [hpc, hstdio, reduceCtorEq, false_or, List.cons_append, fgetsLines, if_neg hline,
      List.length_append, List.length_cons, List.length_nil, Nat.zero_add]
    refine exists_congr fun before => exists_congr fun p => exists_congr fun after =>
      and_congr_right fun _ => and_congr_right fun _ => or_congr_right ?_
    rw [show before.flatten.length - (s.acc.length + 1) - rest.length
      = before.flatten.length - s.acc.length - (rest.length + 1) by omega]
  | line c b rest hpc hstdio hline =>
    refine quitAhead_executed hpc ?_ rfl rfl rfl ?_
    · unfold pending
      rw [hstdio, List.cons_append, fgetsLines, if_pos hline]
    · simp only [hstdio, List.length_append, List.length_cons, List.length_nil]
      omega
  | rest c _ hpc hstdio hk hne =>
    refine quitAhead_executed hpc ?_ rfl rfl rfl ?_
    · unfold pending
      rw [hstdio, hk, List.append_nil, fgetsLines, fgetsLines, if_neg hne, if_pos rfl]
    · rw [hstdio, List.length_nil]
      omega
  | exit _ hpc hstdio hk hnil =>
    rcases hinv.fed hpc with h | h | h
    · exact absurd hnil h
    · exact absurd hstdio h
    · exact absurd hk h

/-- What is left to read, a byte in the kernel counting for its two moves. -/
def left (s : Stdin) : ℕ :=
  3 * s.kernel.length + 2 * s.stdio.length + if s.pc = .poll then 1 else 0

theorem QuitAhead.kernel_ne_nil (h : s.QuitAhead bufSize) (hpc : s.pc ≠ .fgets) :
    s.kernel ≠ [] := by
  obtain ⟨before, p, after, -, -, htime⟩ := h
  have := htime.resolve_left fun h => hpc h.1
  exact List.ne_nil_of_length_pos (by omega)

theorem left_moves (hbuf : 0 < bufSize) (heof : s.eof = true) (hq : s.QuitAhead bufSize)
    (h : PipeMoves bufSize s t) (ht : t.pc = .exited ∨ t.QuitAhead bufSize) :
    t.pc = .exited ∨ t.left < s.left := by
  cases h with
  | arrive chunk h => exact absurd (heof.symm.trans h) (by decide)
  | close h => exact absurd (heof.symm.trans h) (by decide)
  | idle c hpc hk => exact absurd hk (hq.kernel_ne_nil (by rw [hpc]; decide))
  | ready hpc hk =>
    right
    simp only [left, hpc, reduceCtorEq, if_true, if_false]
    omega
  | refill hpc hstdio hk =>
    right
    have hlen := List.length_pos_iff.mpr hk
    simp only [left, hpc, hstdio, List.length_take, List.length_drop, List.length_nil]
    omega
  | byte b rest hpc hstdio hline =>
    right
    simp only [left, hpc, hstdio, List.length_cons]
    omega
  | line c b rest hpc hstdio hline =>
    right
    simp only [left, hpc, hstdio, List.length_cons]
    split_ifs <;> omega
  | rest c _ hpc hstdio hk hne =>
    exact ht.imp_right fun h => absurd hk (h.kernel_ne_nil (afterLine_ne_fgets _))
  | exit => exact .inl rfl

/-- An iteration that reads a line, in which nothing fails. -/
def readsScript (line : List UInt8) : LoopEnv := { readsLine line with spawn := some (4242, 5) }

theorem reads_readsScript (line : List UInt8) : (readsScript line).reads line = true :=
  reads_readsLine line

theorem pipeNext_isSome (hbuf : 0 < bufSize) (heof : s.eof = true) (hq : s.QuitAhead bufSize)
    (hpc : s.pc ≠ .exited) : ∃ l t, s.pipeNext bufSize l = some t := by
  cases hpc' : s.pc with
  | poll =>
    have hk := hq.kernel_ne_nil (by rw [hpc']; decide)
    refine ⟨.ready, { s with pc := .fgets }, ?_⟩
    rw [pipeNext, if_neg hk, next, if_pos ⟨hpc', .inl hk⟩]
  | fgets =>
    rcases hstdio : s.stdio with _ | ⟨b, rest⟩
    · by_cases hk : s.kernel = []
      · have hsucc : (readsScript s.acc).succeeds = true := rfl
        refine ⟨.endOfInput (readsScript s.acc), ?_⟩
        rw [pipeNext, if_pos hsucc, next, if_pos ⟨hpc', hstdio, hk, heof⟩, atEnd,
          if_pos (reads_readsScript s.acc)]
        split_ifs <;> exact ⟨_, rfl⟩
      · have hlen := List.length_pos_iff.mpr hk
        refine ⟨.refill (min bufSize s.kernel.length), ?_⟩
        rw [pipeNext, if_pos rfl, next, if_pos ⟨hpc', hstdio, by omega, by omega, by omega⟩]
        exact ⟨_, rfl⟩
    · have hsucc : (readsScript (s.acc ++ [b])).succeeds = true := rfl
      refine ⟨.byte (readsScript (s.acc ++ [b])), ?_⟩
      rw [pipeNext, if_pos hsucc]
      simp only [next, hpc', hstdio, takeByte, if_pos (reads_readsScript (s.acc ++ [b]))]
      split_ifs <;> exact ⟨_, rfl⟩
  | exited => exact absurd hpc' hpc

/-- An iteration in which `poll` reports the hang-up of the pipe and nothing else. -/
def hangsUp : LoopEnv := { readsScript [] with poll := .ready fun i => ⟨false, i == 0⟩ }

/-- With the pipe empty and closed, the loop is at `poll` after any number of steps and takes
another. -/
theorem spins {tr : List (Stdin × StdinLabel)} (h : (pipeLts bufSize).Path s tr t)
    (heof : s.eof = true) (hpc : s.pc = .poll) (hk : s.kernel = []) :
    t.pc = .poll ∧ ∃ l u, (pipeLts bufSize).step t l u := by
  have hstays := h.inv (I := fun s => s.eof = true ∧ s.pc = .poll ∧ s.kernel = [])
    (fun s l t hs hst => ?_) ⟨heof, hpc, hk⟩
  · obtain ⟨heof, hpc, hk⟩ := hstays
    refine ⟨hpc, .idle hangsUp, t.goOn (mainIter t.cli hangsUp), ?_⟩
    exact if_pos ⟨hpc, hk, rfl, by rw [heof]; rfl⟩
  · obtain ⟨heof, hpc, hk⟩ := hs
    cases pipeMoves_of_pipeNext hst with
    | arrive chunk h => exact absurd (heof.symm.trans h) (by decide)
    | close h => exact absurd (heof.symm.trans h) (by decide)
    | idle c => exact ⟨heof, rfl, hk⟩
    | ready _ hne => exact absurd hk hne
    | refill h => exact nomatch hpc.symm.trans h
    | byte b rest h => exact nomatch hpc.symm.trans h
    | line c b rest h => exact nomatch hpc.symm.trans h
    | rest c _ h => exact nomatch hpc.symm.trans h
    | exit _ h => exact nomatch hpc.symm.trans h

theorem pipeInv_run {tr : List (Stdin × StdinLabel)} (hbuf : 0 < bufSize)
    (h : (pipeLts bufSize).Run tr s) : PipeInv s := by
  refine h.inv (fun s hs => ?_) fun s l t hs hst => ?_
  · obtain rfl := hs
    exact ⟨fun _ => rfl, fun h => absurd h (by decide)⟩
  · exact pipeInv_moves hs (pipeMoves_of_pipeNext hst) hbuf

theorem eof_moves (heof : s.eof = true) (h : PipeMoves bufSize s t) : t.eof = true := by
  cases h <;> first | exact heof | rfl

/-- Where the loop ends in every way on from a state with the writer gone, it has ended or has an
`exit` or `quit` ahead. -/
theorem quitAhead_of_inevitably (hbuf : 0 < bufSize) (hinv : PipeInv s) (heof : s.eof = true)
    (h : (pipeLts bufSize).Inevitably (fun t => t.pc = .exited) s) :
    s.pc = .exited ∨ s.QuitAhead bufSize := by
  refine h.back (I := fun s => PipeInv s → s.eof = true → s.pc = .exited ∨ s.QuitAhead bufSize)
    (fun s hs _ _ => .inl hs) (fun s l t hst ht hinv heof => ?_) hinv heof
  have hm := pipeMoves_of_pipeNext hst
  exact .inr ((quitAhead_moves hbuf hinv heof hm).mp
    (ht (pipeInv_moves hinv hm hbuf) (eof_moves heof hm)))

end Stdin

open Stdin

/-- Once the writer has closed the pipe, the loop ends, whatever happens, exactly when it has ended
or an `exit` or `quit` among the lines left is read while the pipe still holds a byte. -/
theorem ends_iff {bufSize : ℕ} (hbuf : 0 < bufSize) {tr : List (Stdin × StdinLabel)} {s : Stdin}
    (h : (pipeLts bufSize).Run tr s) (heof : s.eof = true) :
    (pipeLts bufSize).Inevitably (fun t => t.pc = .exited) s ↔
      s.pc = .exited ∨ s.QuitAhead bufSize := by
  have hinv := pipeInv_run hbuf h
  refine ⟨quitAhead_of_inevitably hbuf hinv heof, fun hq => ?_⟩
  rcases hq with hpc | hq
  · exact .now hpc
  refine .of_measure (I := fun s => PipeInv s ∧ s.eof = true ∧ s.QuitAhead bufSize) left
    (fun s hs hpc => pipeNext_isSome hbuf hs.2.1 hs.2.2 hpc) (fun s l t hs _ hst => ?_)
    ⟨hinv, heof, hq⟩
  obtain ⟨hinv, heof, hq⟩ := hs
  have hm := pipeMoves_of_pipeNext hst
  rcases (quitAhead_moves hbuf hinv heof hm).mpr hq with ht | ht
  · exact .inl ht
  · exact (left_moves hbuf heof hq hm (.inr ht)).imp_right fun hlt =>
      ⟨⟨pipeInv_moves hinv hm hbuf, eof_moves heof hm, ht⟩, hlt⟩

section Examples

def exitLine : List UInt8 := ascii "exit\n"

/-- `exit` is all that is written. -/
theorem ends_iff_exit : ∃ tr s, (pipeLts 4096).Run tr s ∧ s.eof = true ∧ s.received = exitLine ∧
    (pipeLts 4096).Inevitably (fun t => t.pc = .exited) s := by
  let s : Stdin := { startedCli with kernel := exitLine, eof := true, received := exitLine }
  have hrun : (pipeLts 4096).Run
      (Lts.trace (pipeNext 4096) startedCli [.arrive exitLine, .close]) s :=
    ⟨startedCli, rfl, Lts.exec_path (fun _ _ _ hst => hst) rfl⟩
  refine ⟨_, s, hrun, rfl, rfl, (ends_iff (by decide) hrun rfl).mpr (.inr ?_)⟩
  exact ⟨[], exitLine, [], by decide, by decide, .inr (by decide)⟩

def createDriverLine : List UInt8 := ascii "create_driver\n"

/-- One line is written and read. -/
def oneCommand : List StdinLabel :=
  [.arrive createDriverLine, .close, .ready, .refill createDriverLine.length]
    ++ List.replicate createDriverLine.length (.byte (readsScript createDriverLine))

/-- A driver is created and the writer goes: the pipe is empty and the loop goes on for ever. -/
theorem create_driver_never_ends : ∃ tr s, (pipeLts 4096).Run tr s ∧ s.eof = true ∧
    s.received = createDriverLine ∧ s.executed = [createDriverLine] ∧
    (∀ tr' t, (pipeLts 4096).Path s tr' t → t.pc = .poll ∧ ∃ l u, (pipeLts 4096).step t l u) ∧
    ¬ (pipeLts 4096).Inevitably (fun t => t.pc = .exited) s := by
  have hout : (Lts.exec (pipeNext 4096) startedCli oneCommand).map
      (fun s => (s.pc, s.kernel, s.eof, s.received, s.executed))
      = some (.poll, [], true, createDriverLine, [createDriverLine]) := rfl
  obtain ⟨s, hs, hout⟩ := Option.map_eq_some_iff.mp hout
  simp only [Prod.mk.injEq] at hout
  obtain ⟨hpc, hkernel, heof, hreceived, hexec⟩ := hout
  have hrun : (pipeLts 4096).Run (Lts.trace (pipeNext 4096) startedCli oneCommand) s :=
    ⟨startedCli, rfl, Lts.exec_path (fun _ _ _ hst => hst) hs⟩
  refine ⟨_, s, hrun, heof, hreceived, hexec, fun tr' t h => spins h heof hpc hkernel, fun h => ?_⟩
  rcases quitAhead_of_inevitably (by decide) (pipeInv_run (by decide) hrun) heof h with hq | hq
  · exact nomatch hpc.symm.trans hq
  · exact hq.kernel_ne_nil (by rw [hpc]; decide) hkernel

end Examples

end EltexSystems
