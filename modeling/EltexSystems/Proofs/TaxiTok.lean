import EltexSystems.TaxiCli
import EltexSystems.TaxiTok

/-!
# What the calls of `next_tok` return

A call does to its cursor what `strtok` does to its own, with the white space for delimiters, and
goes no further than the terminator (`nextTok_strtok`).  So a call finds what `nextTok` finds in
the text (`nextTok_text`), and the calls return the line's runs one after the other
(`next_tok_tokenises`).
-/

namespace EltexSystems.LineCursor

open CStr CheckedMem Strtok Runs

variable {m : Tokenizer} {p : UInt8 → Bool} {base stop s : ℕ}

/-- The bytes for which `isspace` is true. -/
def spaces : List UInt8 := [32, 9, 10, 11, 12, 13]

theorem contains_spaces : (spaces.contains · : UInt8 → Bool) = isspace := by
  funext b
  rw [Bool.eq_iff_iff]
  simp only [spaces, isspace, List.contains_iff_mem, List.mem_cons, List.not_mem_nil, or_false,
    Bool.or_eq_true, beq_iff_eq, Bool.and_eq_true, decide_eq_true_eq, UInt8.le_iff_toNat_le,
    ← UInt8.toNat_inj, UInt8.toNat_ofNat]
  omega

/-- What is left of the line ends at its terminator. -/
structure Ends (m : Tokenizer) (stop : ℕ) : Prop where
  string : m.save + (m.string m.save).length = stop
  nul : m.buf[stop]? = some 0

theorem Ends.mem (h : Ends m stop) (hs : s ≤ stop) : (0 : UInt8) ∈ m.buf.drop s := by
  have hget : (m.buf.drop s)[stop - s]? = some 0 := by
    rw [List.getElem?_drop, Nat.add_sub_cancel' hs]
    exact h.nul
  exact List.mem_of_getElem? hget

theorem Ends.strtok (h : Ends m stop) (delim : List UInt8) :
    Ends (strtok delim none m).2 stop :=
  ⟨(strtok_end delim none m).trans h.string, strtok_nul delim none h.nul⟩

/-- The loop stops at the first byte of the string that is not skipped. -/
theorem advance_eq : ∀ {mem : List UInt8} (s : ℕ), (0 : UInt8) ∈ mem → advance p s mem
    = some (s + ((cstr mem).takeWhile p).length,
      List.range' s (((cstr mem).takeWhile p).length + 1))
  | b :: mem, s, h => by
    rw [advance, cstr_cons]
    by_cases hb : b = 0
    · rw [if_neg fun hand => hand.1 hb, if_pos hb]
      rfl
    rw [if_neg hb]
    by_cases hp : p b = true
    · have hmem : (0 : UInt8) ∈ mem := (List.mem_cons.mp h).resolve_left (Ne.symm hb)
      rw [if_pos ⟨hb, hp⟩, advance_eq (s + 1) hmem, List.takeWhile_cons_of_pos hp, List.length_cons,
        List.range'_succ (s := s), Option.map_some, Nat.add_assoc, Nat.add_comm 1]
    · rw [if_neg fun hand => hp hand.2, List.takeWhile_cons_of_neg hp]
      rfl

theorem load_string (h : (0 : UInt8) ∈ m.buf.drop s) :
    ∃ b, load8 m.buf s = some b ∧ (b = 0 ↔ m.string s = []) := by
  rcases hdrop : m.buf.drop s with _ | ⟨b, rest⟩
  · rw [hdrop] at h
    cases h
  · refine ⟨b, ?_, ?_⟩
    · rw [load8, ← List.head?_drop, hdrop, List.head?_cons]
    · rw [Tokenizer.string, hdrop, cstr_cons]
      by_cases hb : b = 0
      · rw [if_pos hb]
        exact iff_of_true hb rfl
      · rw [if_neg hb]
        exact iff_of_false hb (List.cons_ne_nil _ _)

theorem advance_strspn (h : (0 : UInt8) ∈ m.buf.drop s) :
    advance isspace s (m.buf.drop s) = some (s + strspn (m.string s) spaces,
      List.range' s (strspn (m.string s) spaces + 1)) := by
  rw [advance_eq s h, strspn, contains_spaces]
  rfl

theorem advance_strcspn (h : (0 : UInt8) ∈ m.buf.drop s) :
    advance (!isspace ·) s (m.buf.drop s) = some (s + strcspn (m.string s) spaces,
      List.range' s (strcspn (m.string s) spaces + 1)) := by
  rw [advance_eq s h, strcspn, ← contains_spaces]
  rfl

/-- A call is one of `strtok`, with the white space for delimiters, and stays on the line. -/
theorem nextTok_strtok (h : Ends m stop) : ∃ acc,
    nextTok m = some ⟨(strtok spaces none m).1, (strtok spaces none m).2, acc⟩
      ∧ ∀ i ∈ acc, m.save ≤ i ∧ i ≤ stop := by
  have hend := h.string
  have hskip := advance_strspn (h.mem (s := m.save) (by omega))
  have hspn := strspn_add m m.save spaces
  generalize htok : m.save + strspn (m.string m.save) spaces = tok at hskip hspn
  obtain ⟨b, hb, hnil⟩ := load_string (h.mem (s := tok) (by omega))
  by_cases hb0 : b = 0
  · rw [strtok_none spaces none m htok (hnil.mp hb0)]
    refine ⟨List.range' m.save (strspn (m.string m.save) spaces + 1) ++ [tok], ?_, fun i hi => ?_⟩
    · simp only [nextTok, hskip, Option.bind_some, hb, if_pos hb0]
    · rw [List.mem_append, List.mem_range'_1, List.mem_singleton] at hi
      omega
  have hread := advance_strcspn (h.mem (s := tok) (by omega))
  have hcspn := strcspn_add m tok spaces
  have hcall : strtok spaces none m
      = if m.string (tok + strcspn (m.string tok) spaces) = []
        then (some tok, { m with save := tok + strcspn (m.string tok) spaces })
        else (some tok, ⟨m.buf.set (tok + strcspn (m.string tok) spaces) 0,
          tok + strcspn (m.string tok) spaces + 1⟩) := by
    unfold strtok
    simp only [Option.getD_none, htok]
    exact if_neg (mt hnil.mpr hb0)
  generalize hs : tok + strcspn (m.string tok) spaces = s at *
  obtain ⟨c, hc, hcnil⟩ := load_string (h.mem (s := s) (by omega))
  by_cases hc0 : c = 0
  · -- the token ends at the terminator, which stays as it is
    rw [hcall, if_pos (hcnil.mp hc0)]
    refine ⟨List.range' m.save (strspn (m.string m.save) spaces + 1)
      ++ tok :: (List.range' tok (strcspn (m.string tok) spaces + 1) ++ [s]), ?_, fun i hi => ?_⟩
    · simp only [nextTok, hskip, Option.bind_some, hb, if_neg hb0, hread, hc,
        if_neg (not_not.mpr hc0)]
    · simp only [List.mem_append, List.mem_cons, List.mem_range'_1, List.not_mem_nil,
        or_false] at hi
      omega
  · have hlt : s < m.buf.length := (List.getElem?_eq_some_iff.mp hc).1
    rw [hcall, if_neg (mt hcnil.mpr hc0)]
    refine ⟨List.range' m.save (strspn (m.string m.save) spaces + 1)
      ++ tok :: (List.range' tok (strcspn (m.string tok) spaces + 1) ++ [s, s]), ?_,
      fun i hi => ?_⟩
    · simp only [nextTok, hskip, Option.bind_some, hb, if_neg hb0, hread, hc, if_pos hc0,
        store8_eq 0 hlt, Option.map_some, Mem.store8]
    · simp only [List.mem_append, List.mem_cons, List.mem_range'_1, List.not_mem_nil,
        or_false] at hi
      omega

/-- A call finds what `nextTok` finds in the text that is left. -/
theorem nextTok_text (h : Ends m stop) : ∃ r, nextTok m = some r
    ∧ EltexSystems.nextTok (m.string m.save)
      = (r.token.map r.after.string, r.after.string r.after.save) := by
  obtain ⟨acc, hcall, -⟩ := nextTok_strtok h
  refine ⟨_, hcall, ?_⟩
  have htok := string_strspn m m.save spaces
  rw [contains_spaces] at htok
  unfold EltexSystems.nextTok
  simp only [← htok]
  by_cases hnil : m.string (m.save + strspn (m.string m.save) spaces) = []
  · rw [if_pos hnil, strtok_none spaces none m rfl hnil]
    exact congrArg (none, ·) hnil.symm
  · obtain ⟨hptr, hclosed, hrest, -⟩ := strtok_found spaces none m rfl hnil
    rw [if_neg hnil, hptr, hrest, Option.map_some]
    have hnot : (!spaces.contains · : UInt8 → Bool) = (!isspace ·) := by rw [← contains_spaces]
    rw [← hnot]
    exact congrArg (some · , _) hclosed.string.symm

/-- What a call does to the runs that are left, the first of which it returns. -/
theorem nextTok_spec (h : Ends m stop) {ws : List (ℕ × List UInt8)}
    (hws : runs isspace m.save (m.string m.save) = ws) :
    ∃ r, nextTok m = some r ∧ r.token = ws.head?.map Prod.fst
      ∧ runs isspace r.after.save (r.after.string r.after.save) = ws.tail
      ∧ (∀ q ∈ ws.head?, Closed r.after q.1 q.2) ∧ (∀ {q w}, Closed m q w → Closed r.after q w)
      ∧ Ends r.after stop ∧ m.save ≤ r.after.save ∧ ∀ i ∈ r.accessed, m.save ≤ i ∧ i ≤ stop := by
  obtain ⟨acc, hcall, hacc⟩ := nextTok_strtok h
  rw [← contains_spaces] at hws ⊢
  obtain ⟨htoken, hrest, hclosed⟩ := strtok_runs spaces none m hws
  exact ⟨_, hcall, htoken, hrest, hclosed, strtok_closed spaces, h.strtok spaces,
    strtok_le spaces none m, hacc⟩

/-- The calls return the runs that are left one after the other. -/
theorem calls_spec (n : ℕ) : ∀ {m : Tokenizer} {ps ws : List (ℕ × List UInt8)}, Ends m stop →
    base ≤ m.save → (∀ q ∈ ps, Closed m q.1 q.2) →
    runs isspace m.save (m.string m.save) = ws →
    ∃ rs, calls n m = some rs ∧ rs.length = n ∧ ∀ (k : ℕ) (r : Call), rs[k]? = some r →
      r.token = ws[k]?.map Prod.fst ∧ (∀ q ∈ ps ++ ws.take (k + 1), Closed r.after q.1 q.2)
        ∧ Ends r.after stop ∧ ∀ i ∈ r.accessed, base ≤ i ∧ i ≤ stop := by
  induction n with
  | zero => exact fun _ _ _ _ => ⟨[], rfl, rfl, fun k r hr => by cases hr⟩
  | succ n ih =>
    intro m ps ws h hbase hps hws
    obtain ⟨r, hcall, htoken, hrest, hnew, hold, hends, hle, hacc⟩ := nextTok_spec h hws
    have hclosed : ∀ q ∈ ps ++ ws.take 1, Closed r.after q.1 q.2 := by
      intro q hq
      rcases List.mem_append.mp hq with hq | hq
      · exact hold (hps q hq)
      · rw [List.take_one, Option.mem_toList] at hq
        exact hnew q hq
    obtain ⟨rs, hcalls, hlen, hrs⟩ := ih hends (Nat.le_trans hbase hle) hclosed hrest
    refine ⟨r :: rs, ?_, congrArg (· + 1) hlen, fun k => ?_⟩
    · rw [calls, hcall, Option.bind_some, hcalls, Option.map_some]
    rcases k with _ | k
    · intro r' hr
      obtain rfl := Option.some.inj hr
      refine ⟨?_, hclosed, hends, fun i hi => ⟨Nat.le_trans hbase (hacc i hi).1, (hacc i hi).2⟩⟩
      rw [htoken, List.head?_eq_getElem?]
    · intro r' hr
      obtain ⟨htoken', hclosed', hacc'⟩ := hrs k r' hr
      rw [List.getElem?_tail] at htoken'
      have htake : ws.take (k + 1 + 1) = ws.take 1 ++ ws.tail.take (k + 1) := by
        rcases ws with _ | ⟨w, ws⟩
        · rfl
        · rfl
      rw [htake, ← List.append_assoc]
      exact ⟨htoken', hclosed', hacc'⟩

/-- However often it is called, `next_tok` returns the words of the line, each once and in order,
and then `NULL`. -/
theorem next_tok_tokenises (pre line rest : List UInt8) (h0 : (0 : UInt8) ∉ line) :
    ∃ words, ∀ n, ∃ rs, calls n ⟨pre ++ (line ++ 0 :: rest), pre.length⟩ = some rs
      ∧ rs.length = n ∧ Tokenises line pre.length words rs := by
  have hstring : (Tokenizer.mk (pre ++ (line ++ 0 :: rest)) pre.length).string pre.length
      = line := by
    rw [Tokenizer.string, List.drop_left, cstr_append_nul]
    exact cstr_of_ne_zero fun b hb hb0 => h0 (hb0 ▸ hb)
  have hends : Ends ⟨pre ++ (line ++ 0 :: rest), pre.length⟩ (pre.length + line.length) := by
    refine ⟨congrArg (pre.length + List.length ·) hstring, ?_⟩
    simp only [List.getElem?_append_right (Nat.le_add_right _ _), Nat.add_sub_cancel_left]
    rw [List.getElem?_append_right (Nat.le_refl _), Nat.sub_self]
    rfl
  refine ⟨runs isspace pre.length line, fun n => ?_⟩
  obtain ⟨rs, hcalls, hlen, hrs⟩ := calls_spec n hends (Nat.le_refl _) (List.forall_mem_nil _) rfl
  rw [hstring] at hrs
  refine ⟨rs, hcalls, hlen, fun j w => mem_runs_iff, runs_sorted _ _ _,
    fun k r hr => (hrs k r hr).1, fun k r hr q hq => ?_, fun r hr => ?_⟩
  · obtain ⟨-, hclosed, hends', -⟩ := hrs k r hr
    obtain ⟨i, hi, hrun⟩ := mem_runs_iff.mp (List.mem_of_mem_take hq)
    have hle := hrun.add_length_le
    have hq := (hclosed q hq).string
    rw [← hq]
    exact cstr_concat_prefix (hends'.mem (by omega))
  · obtain ⟨k, hk⟩ := List.mem_iff_getElem?.mp hr
    exact (hrs k r hk).2.2.2

theorem next_tok_tokenises_send_task :
    (calls 5 ⟨ascii " send_task 12\t5\n" ++ [0], 0⟩).map (·.map Call.token)
        = some [some 1, some 11, some 14, none, none]
      ∧ ∃ words, ∀ n, ∃ rs, calls n ⟨[] ++ (ascii " send_task 12\t5\n" ++ [0]), 0⟩ = some rs
        ∧ rs.length = n ∧ Tokenises (ascii " send_task 12\t5\n") 0 words rs :=
  ⟨by decide, next_tok_tokenises [] (ascii " send_task 12\t5\n") [] (by decide)⟩

end EltexSystems.LineCursor
