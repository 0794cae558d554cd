import EltexSystems.Proofs.TaxiExpiry
import EltexSystems.Proofs.TaxiLink
import EltexSystems.Proofs.TaxiPipe
import EltexSystems.Proofs.TaxiTable
import EltexSystems.TaxiTask

/-!
# Numbers on their way to a driver

Of a line `send_task P T` only the first 255 bytes are run as the command (`parse_first`), the
pieces behind them are no command (`parse_behind`), and `strtol`'s `long` is cut down to an `int`
(`pos_toInt_iff`).  A driver takes the timer it is sent as it is, so what is delivered is what was
typed unless both numbers are cut down to a pid and a timer and one of them is changed
(`delivers_iff`).
-/

namespace EltexSystems

open CStr

section Pieces

theorem flatten_fgetsLines : ∀ (acc l : List UInt8), (fgetsLines acc l).flatten = acc ++ l
  | acc, [] => by
    rw [fgetsLines]
    split_ifs with h
    · rw [h]
      rfl
    · simp
  | acc, b :: l => by
    rw [fgetsLines]
    split_ifs
    · rw [List.flatten_cons, flatten_fgetsLines [] l, List.append_assoc]
      rfl
    · rw [flatten_fgetsLines (acc ++ [b]) l, List.append_assoc]
      rfl

/-- `fgets` takes of a line what `line` has room for. -/
theorem fgetsLines_line : ∀ {body acc : List UInt8}, LF ∉ body → acc.length < MSGSZ - 1 →
    fgetsLines acc (body ++ [LF]) = (acc ++ body ++ [LF]).take (MSGSZ - 1)
      :: fgetsLines [] ((acc ++ body ++ [LF]).drop (MSGSZ - 1))
  | [], acc, _, hacc => by
    have hlen : (acc ++ [] ++ [LF]).length ≤ MSGSZ - 1 := by simp; omega
    rw [List.take_of_length_le hlen, List.drop_of_length_le hlen, List.nil_append, List.append_nil]
    simp only [fgetsLines, true_or, if_true]
  | b :: body, acc, hbody, hacc => by
    have hb : b ≠ LF := fun h => hbody (h ▸ List.mem_cons_self)
    have hassoc : acc ++ b :: body ++ [LF] = acc ++ [b] ++ body ++ [LF] := by simp
    rw [List.cons_append, fgetsLines, hassoc]
    by_cases hfull : acc.length + 1 = MSGSZ - 1
    · have hlen : (acc ++ [b]).length = MSGSZ - 1 := by simp [hfull]
      rw [if_pos (.inr hfull), List.append_assoc (acc ++ [b]), List.take_left' hlen,
        List.drop_left' hlen]
    · rw [if_neg (by simp [hb, hfull])]
      exact fgetsLines_line (fun h => hbody (List.mem_cons_of_mem _ h)) (by simp; omega)

end Pieces

section Tokens

theorem nextTok_token {tok rest : List UInt8} (htok : ∀ b ∈ tok, isspace b = false)
    (hne : tok ≠ []) (hrest : ∀ b, rest.head? = some b → isspace b = true) :
    nextTok (tok ++ rest) = (some tok, rest.drop 1) := by
  obtain ⟨b, tok', rfl⟩ := List.exists_cons_of_ne_nil hne
  have hspace : (b :: tok' ++ rest).dropWhile isspace = b :: tok' ++ rest := by
    rw [List.cons_append, List.dropWhile_cons_of_neg]
    rw [htok b List.mem_cons_self]
    decide
  have hall : ∀ a ∈ b :: tok', (!isspace a) = true := fun a ha => by rw [htok a ha]; rfl
  have hstop : rest.takeWhile (!isspace ·) = [] ∧ rest.dropWhile (!isspace ·) = rest := by
    rcases rest with _ | ⟨a, rest⟩
    · exact ⟨rfl, rfl⟩
    · have ha := hrest a rfl
      rw [List.takeWhile_cons, List.dropWhile_cons, ha]
      exact ⟨rfl, rfl⟩
  unfold nextTok
  simp only [hspace]
  rw [if_neg (by simp), List.takeWhile_append_of_pos hall, List.dropWhile_append_of_pos hall,
    hstop.1, hstop.2, List.append_nil]

theorem nextTok_space {b : UInt8} (hb : isspace b = true) (s : List UInt8) :
    nextTok (b :: s) = nextTok s := by
  unfold nextTok
  rw [List.dropWhile_cons_of_pos hb]

theorem nextTok_spaces {s : List UInt8} (h : ∀ b ∈ s, isspace b = true) :
    nextTok s = (none, []) := by
  unfold nextTok
  rw [List.dropWhile_eq_nil_iff.mpr h]
  rfl

theorem mem_of_nextTok {s tok rest : List UInt8} (h : nextTok s = (some tok, rest)) {b : UInt8}
    (hb : b ∈ tok) : b ∈ s := by
  unfold nextTok at h
  simp only [] at h
  by_cases hs : s.dropWhile isspace = []
  · rw [if_pos hs] at h
    exact nomatch (Prod.mk.inj h).1
  · rw [if_neg hs] at h
    rw [← Option.some.inj (Prod.mk.inj h).1] at hb
    exact List.dropWhile_subset _ (List.takeWhile_subset _ hb)

end Tokens

section Numbers

theorem toInt_eq (z : ℤ) :
    toInt z = if z % 2 ^ 32 < 2 ^ 31 then z % 2 ^ 32 else z % 2 ^ 32 - 2 ^ 32 := by
  unfold toInt Int.bmod
  norm_num

/-- What `strtol` and the conversion to `int` make of digits is positive in these cases, and then
the number's low 32 bits. -/
theorem pos_toInt_iff {ds : List UInt8} (h : ∀ b ∈ ds, isdigit b = true) :
    (0 < toInt (strtol ds).1 ↔ LowInRange (2 ^ 31 - 1) ds) ∧
      (0 < toInt (strtol ds).1 → toInt (strtol ds).1 = (digitsValue ds % 2 ^ 32 : ℕ)) := by
  rw [strtol_digits h, toInt_eq, LowInRange, LONG_MAX]
  rcases Nat.lt_or_ge (digitsValue ds) (2 ^ 63) with hlt | hge
  · rw [min_eq_right (by omega)]
    split_ifs <;> omega
  · rw [min_eq_left (by omega)]
    omega

end Numbers

section Parsed

variable {P T : List UInt8}

theorem parseLine_sendTask {q : List UInt8} (hq : ∀ b ∈ q, b ≠ 0) :
    parseLine (ascii "send_task " ++ q) = parseSendTask q := by
  have hcstr : cstr (ascii "send_task " ++ q) = ascii "send_task" ++ 32 :: q := by
    rw [cstr_append (ne_zero_of_all (by decide)), cstr_of_ne_zero hq]
    rfl
  have hword : (ascii "send_task").all (!isspace ·) = true := by decide
  have htok : nextTok (ascii "send_task" ++ 32 :: q) = (some (ascii "send_task"), q) :=
    nextTok_token (fun b hb => by simpa using List.all_eq_true.mp hword b hb) (by decide)
      fun b hb => by rw [← Option.some.inj hb]; decide
  unfold parseLine
  simp only [hcstr, htok]
  rw [if_neg (by decide), if_pos trivial]

theorem parseSendTask_usage {q : List UInt8} (h : (nextTok (nextTok q).2).1 = none) :
    parseSendTask q = .taskUsage := by
  unfold parseSendTask
  simp only [h]
  split
  · rename_i heq
    cases heq
  · rfl

theorem parseSendTask_tokens {q r r' spid st : List UInt8} (hspid : nextTok q = (some spid, r))
    (hst : nextTok r = (some st, r')) :
    parseSendTask q = if toInt (strtol spid).1 ≤ 0 ∨ toInt (strtol st).1 ≤ 0 then .badArgs
      else .sendTask (toInt (strtol spid).1) (toInt (strtol st).1) := by
  unfold parseSendTask
  simp only [hspid, hst]

/-- The timer behind the pid, as far as the line was read. -/
theorem nextTok_timer (hT : ∀ b ∈ T, isdigit b = true) (k : ℕ) :
    nextTok ((T ++ [LF]).take k) = (if T.take k = [] then none else some (T.take k), []) := by
  have hLF : ∀ b ∈ [LF].take (k - T.length), isspace b = true := fun b hb => by
    rw [List.mem_singleton.mp (List.mem_of_mem_take hb)]
    decide
  rw [List.take_append]
  by_cases hnil : T.take k = []
  · rw [if_pos hnil, hnil, List.nil_append, nextTok_spaces hLF]
  · rw [if_neg hnil, nextTok_token (fun b hb => isspace_of_isdigit (hT b (List.mem_of_mem_take hb)))
      hnil fun b hb => hLF b (List.mem_of_mem_head? hb)]
    rw [List.drop_of_length_le (by rw [List.length_take]; exact Nat.min_le_right _ _)]

theorem drop_take_cons (a : UInt8) (l : List UInt8) (n : ℕ) :
    ((a :: l).take n).drop 1 = l.take (n - 1) ∧ ∀ b, ((a :: l).take n).head? = some b → b = a := by
  cases n with
  | zero => exact ⟨rfl, fun b hb => nomatch hb⟩
  | succ n => exact ⟨rfl, fun b hb => (Option.some.inj hb).symm⟩

theorem isdigit_timerRead (hT : ∀ b ∈ T, isdigit b = true) :
    ∀ b ∈ timerRead P T, isdigit b = true :=
  fun b hb => hT b (List.mem_of_mem_take hb)

theorem digit_or_space (hP : ∀ b ∈ P, isdigit b = true) (hT : ∀ b ∈ T, isdigit b = true)
    {b : UInt8} (hb : b ∈ P ++ 32 :: (T ++ [LF])) : isdigit b = true ∨ isspace b = true := by
  simp only [List.mem_append, List.mem_cons, List.not_mem_nil, or_false] at hb
  rcases hb with hb | rfl | hb | rfl
  · exact .inl (hP b hb)
  · exact .inr (by decide)
  · exact .inl (hT b hb)
  · exact .inr (by decide)

theorem fgetsLines_sendTask (hP : ∀ b ∈ P, isdigit b = true) (hT : ∀ b ∈ T, isdigit b = true) :
    fgetsLines [] (sendTaskLine P T) = (sendTaskLine P T).take (MSGSZ - 1)
      :: fgetsLines [] ((sendTaskLine P T).drop (MSGSZ - 1)) := by
  have hempty : ([] : List UInt8).length < MSGSZ - 1 := by decide
  refine fgetsLines_line (fun hm => ?_) hempty
  simp only [List.mem_append, List.mem_cons] at hm
  rcases hm with (hm | hm) | hm | hm
  · exact absurd hm (by decide)
  · exact absurd (hP _ hm) (by decide)
  · exact absurd hm (by decide)
  · exact absurd (hT _ hm) (by decide)

/-- The command in the first 255 bytes. -/
theorem parse_first (hP : ∀ b ∈ P, isdigit b = true) (hT : ∀ b ∈ T, isdigit b = true) :
    parseLine ((sendTaskLine P T).take (MSGSZ - 1)) =
      if P = [] ∨ timerRead P T = [] then .taskUsage
      else if toInt (strtol P).1 ≤ 0 ∨ toInt (strtol (timerRead P T)).1 ≤ 0 then .badArgs
      else .sendTask (toInt (strtol P).1) (toInt (strtol (timerRead P T)).1) := by
  have hline : (sendTaskLine P T).take (MSGSZ - 1)
      = ascii "send_task " ++ (P ++ 32 :: (T ++ [LF])).take (MSGSZ - 11) := by
    rw [sendTaskLine, List.append_assoc, List.append_assoc, List.take_append,
      List.take_of_length_le (by decide)]
    rfl
  rw [hline, parseLine_sendTask fun b hb => ?_]
  · rcases eq_or_ne P [] with rfl | hP0
    · rw [if_pos (.inl rfl), List.nil_append]
      refine parseSendTask_usage ?_
      rw [show MSGSZ - 11 = 244 + 1 from rfl, List.take_succ_cons, nextTok_space (by decide),
        nextTok_timer hT]
      rfl
    · have htok : nextTok ((P ++ 32 :: (T ++ [LF])).take (MSGSZ - 11))
          = (some (P.take (MSGSZ - 11)), (T ++ [LF]).take (MSGSZ - 12 - P.length)) := by
        rw [List.take_append, nextTok_token
          (fun b hb => isspace_of_isdigit (hP b (List.mem_of_mem_take hb)))
          (by simpa [MSGSZ] using hP0) fun b hb => ?_]
        · rw [(drop_take_cons _ _ _).1, show MSGSZ - 11 - P.length - 1 = MSGSZ - 12 - P.length by
            omega]
        · rw [(drop_take_cons _ _ _).2 b hb]
          decide
      by_cases hT0 : timerRead P T = []
      · rw [if_pos (.inr hT0)]
        refine parseSendTask_usage ?_
        rw [htok, nextTok_timer hT]
        exact if_pos hT0
      · have hlen : P.length < MSGSZ - 12 := by
          by_contra hge
          refine hT0 ?_
          rw [timerRead, Nat.sub_eq_zero_of_le (by omega), List.take_zero]
        have hspid : P.take (MSGSZ - 11) = P := List.take_of_length_le (by omega)
        have hst : nextTok ((T ++ [LF]).take (MSGSZ - 12 - P.length))
            = (some (timerRead P T), []) :=
          (nextTok_timer hT _).trans (Prod.ext (if_neg hT0) rfl)
        rw [if_neg (by simp [hP0, hT0])]
        exact parseSendTask_tokens (htok.trans (by rw [hspid])) hst
  · rcases digit_or_space hP hT (List.mem_of_mem_take hb) with h | h
    · exact ne_zero_of_isdigit h
    · rintro rfl
      exact absurd h (by decide)

/-- What follows the first 255 bytes is no command. -/
theorem parse_behind (hP : ∀ b ∈ P, isdigit b = true) (hT : ∀ b ∈ T, isdigit b = true)
    {p : List UInt8} (hp : p ∈ fgetsLines [] ((sendTaskLine P T).drop (MSGSZ - 1))) :
    parseLine p = .empty ∨ parseLine p = .unknown := by
  have hmem : ∀ b ∈ p, isdigit b = true ∨ isspace b = true := by
    intro b hb
    have hflat := flatten_fgetsLines [] ((sendTaskLine P T).drop (MSGSZ - 1))
    have hb' : b ∈ (sendTaskLine P T).drop (MSGSZ - 1) := by
      rw [List.nil_append] at hflat
      rw [← hflat]
      exact List.mem_flatten.mpr ⟨p, hp, hb⟩
    refine digit_or_space hP hT ?_
    rw [sendTaskLine, List.append_assoc, List.append_assoc, List.drop_append,
      List.drop_of_length_le (by decide), List.nil_append] at hb'
    exact List.mem_of_mem_drop hb'
  rcases htok : nextTok (cstr p) with ⟨_ | tok, rest⟩
  · left
    unfold parseLine
    simp only [htok]
  · right
    have hword : ∀ b ∈ tok, isdigit b = true ∨ isspace b = true := fun b hb =>
      hmem b (List.takeWhile_subset _ (mem_of_nextTok htok hb))
    have hne : ∀ (b : UInt8) (word : List UInt8), (isdigit b || isspace b) = false → b ∈ word →
        tok ≠ word := by
      rintro b word hb hbw rfl
      rcases hword b hbw with h | h <;> rw [h] at hb <;> simp at hb
    unfold parseLine
    simp only [htok]
    rw [if_neg (hne 99 _ (by decide) (by decide)), if_neg (hne 115 _ (by decide) (by decide)),
      if_neg (hne 103 _ (by decide) (by decide)), if_neg (hne 103 _ (by decide) (by decide)),
      if_neg (not_or.mpr ⟨hne 101 _ (by decide) (by decide), hne 113 _ (by decide) (by decide)⟩)]

end Parsed

section Sent

variable {c c' : Cli} {e : LoopEnv} {m : ℤ × List UInt8}

theorem sent_emit (c : Cli) (es : List Effect) :
    (c.emit es).sent = c.sent ++ es.filterMap Effect.message :=
  List.filterMap_append

theorem sent_print (c : Cli) (text : List UInt8) : (c.emit [.print text]).sent = c.sent :=
  (sent_emit c _).trans (List.append_nil _)

/-- What is done to an entry without sending it anything. -/
theorem sent_atEntry {i : ℕ} {f : DriverEntry → DriverEntry × List Effect}
    (hf : ∀ d, (f d).2.filterMap Effect.message = []) : (c.atEntry i f).sent = c.sent := by
  unfold Cli.atEntry
  split
  · rfl
  · rename_i d _
    rw [sent_emit, hf d, List.append_nil]
    rfl

theorem sent_reapChildren (c : Cli) (ps : List ℤ) : (reapChildren c ps).sent = c.sent := by
  unfold reapChildren
  induction ps generalizing c with
  | nil => rfl
  | cons p ps ih =>
    rw [List.foldl_cons, ih]
    unfold reapChild
    split
    · rfl
    · refine sent_atEntry fun d => ?_
      unfold reapEntry
      split_ifs <;> rfl

theorem sent_prompted (c : Cli) (e : LoopEnv) : (prompted c e).sent = c.sent := by
  rw [sent_print, sent_reapChildren]

theorem message_handleDriverReadable (d : DriverEntry) :
    ∀ rs : List Recv, (handleDriverReadable rs d).2.filterMap Effect.message = []
  | [] => rfl
  | .again :: _ => rfl
  | .error :: _ => rfl
  | .data [] :: _ => rfl
  | .data (_ :: _) :: rs => message_handleDriverReadable d rs

theorem sent_dispatch (revents : ℕ → Revents) (recv : ℕ → List Recv) :
    ∀ (is : List ℕ) (idx : ℕ) (c : Cli), (dispatch revents recv is idx c).1.sent = c.sent
  | [], _, _ => rfl
  | i :: is, idx, c => by
    unfold dispatch
    split_ifs
    · refine (sent_dispatch revents recv is (idx + 1) _).trans (sent_atEntry fun d => ?_)
      unfold judge
      split_ifs
      · rfl
      · exact message_handleDriverReadable d _
      · rfl
    · exact sent_dispatch revents recv is idx c

/-- An iteration sends what its command sends. -/
theorem sent_mainIter (hc : runCommand (prompted c e) e (commandOf e) = some c')
    (hcmd : commandOf e ≠ .quit) : (mainIter c e).cli.sent = c'.sent := by
  obtain ⟨-, -, ⟨-, heq, hnone⟩ | ⟨revents, c₁, hc₁, heq, -⟩⟩ := mainIter_cases c e
  · rcases hnone with h | h | h
    · rw [h] at hc
      obtain rfl := Option.some.inj hc
      rcases heq with heq | heq <;> rw [heq]
      rw [sent_prompted, sent_reapChildren]
    · exact absurd h hcmd
    · exact nomatch h.symm.trans hc
  · obtain rfl := Option.some.inj (hc.symm.trans hc₁)
    rw [heq]
    exact sent_dispatch _ _ _ _ _

theorem commandOf_reads {p : List UInt8} (h : e.reads p = true) : commandOf e = parseLine p := by
  obtain ⟨hcalloc, ⟨revents, hpoll, hin⟩, hline⟩ := LoopEnv.reads_iff.mp h
  unfold commandOf
  rw [hcalloc, hpoll, hline]
  exact if_pos hin

/-- A message to a driver goes to an alive entry with its pid. -/
theorem sent_cmdToDriver {pid : ℤ} {cmd : Command}
    (hm : m ∈ (cmdToDriver c pid cmd e).sent.drop c.sent.length) :
    ∃ x ∈ c.drivers, x.alive = true ∧ x.pid = pid ∧ m = (x.fd, cmd.text) := by
  unfold cmdToDriver at hm
  rcases hfind : findDriver c pid with _ | i
  · rw [hfind] at hm
    simp only [sent_emit, List.drop_left] at hm
    cases hm
  · rw [hfind] at hm
    obtain ⟨hlt, hpid, -⟩ := List.findIdx?_eq_some_iff_getElem.mp hfind
    have hx : c.drivers[i]? = some c.drivers[i] := List.getElem?_eq_getElem hlt
    refine ⟨c.drivers[i], List.getElem_mem hlt, ?_⟩
    simp only [Cli.sent, log_atEntry c hx, List.filterMap_append, List.drop_left] at hm
    by_cases ha : c.drivers[i].alive = true
    · refine ⟨ha, by simpa using hpid, ?_⟩
      simp only [ha, Bool.not_true, Bool.false_eq_true, if_false, sendCmd] at hm
      cases hsend : e.send i <;> rw [hsend] at hm
      · simpa [Effect.message] using hm
      · simp [Effect.message, bury] at hm
      · simp [Effect.message] at hm
    · rw [Bool.not_eq_true] at ha
      rw [ha, Bool.not_false, if_pos rfl] at hm
      cases hm

end Sent

section Timers

theorem taskTimer_text {n : ℕ} (h : n < 2 ^ 31) :
    (taskTimer (msgText (Command.task n).text)).1 = n := by
  have hlen : (decimal n).length ≤ 10 := length_decimal_le (by decide) (by omega)
  have htext : msgText (Command.task n).text = ascii "TASK" ++ 32 :: decimal n := by
    have hdec : decimalInt n = decimal n := by
      rw [decimalInt, if_neg (by omega), Int.natAbs_natCast]
    have hfits : (ascii "TASK " ++ decimal n).length ≤ MSGSZ - 1 := by
      rw [List.length_append, show (ascii "TASK ").length = 5 from rfl, MSGSZ]
      omega
    rw [msgText, Command.text, snprintf, hdec, List.take_take, min_self,
      List.take_of_length_le hfits, cstr_append (ne_zero_of_all (by decide)),
      cstr_of_ne_zero fun b hb => ne_zero_of_mem_decimal hb]
    rfl
  have hspace : (32 :: decimal n).dropWhile isspace = decimal n := by
    rw [List.dropWhile_cons_of_pos (by decide)]
    rcases hd : decimal n with _ | ⟨b, ds⟩
    · rfl
    · have hb := isdigit_of_mem_decimal (hd ▸ List.mem_cons_self : b ∈ decimal n)
      rw [List.dropWhile_cons_of_neg (by rw [isspace_of_isdigit hb]; decide)]
  rw [taskTimer, htext, show (ascii "TASK" ++ 32 :: decimal n).drop 4 = 32 :: decimal n from rfl,
    hspace, strtol_digits fun b hb => isdigit_of_mem_decimal hb, digitsValue_decimal, LONG_MAX]
  omega

theorem asksTask_text {n : ℕ} (h1 : 1 ≤ n) (h2 : n ≤ 86400) :
    AsksTask (msgText (Command.task n).text) := by
  obtain ⟨rest, hrest⟩ := Command.task_text n
  refine ⟨?_, by rw [taskTimer_text (by omega)]; omega, by rw [taskTimer_text (by omega)]; omega⟩
  rw [hrest]
  exact (strncmpEq_append (ne_zero_of_all (by decide)) rest (ascii "TASK")).trans (by decide)

/-- A driver sent a timer stays as it is without an OK, or sets its timer to it. -/
theorem handleMsg_timer {n : ℕ} (h : n < 2 ^ 31) (d : Driver) (now : ℕ) :
    .ok ∉ (handleMsg d now (msgText (Command.task n).text)).sends ∧
        (handleMsg d now (msgText (Command.task n).text)).driver = d ∨
      1 ≤ n ∧ n ≤ 86400 ∧ (handleMsg d now (msgText (Command.task n).text)).driver.tfd
        = some (now + n * nsPerSec) := by
  rcases handleMsg_cases d now (msgText (Command.task n).text) with
    ⟨-, he⟩ | ⟨-, he⟩ | ⟨-, he⟩ | he | he | ⟨-, -, sec, h1, h2, hsec, he⟩ <;> rw [he]
  · exact .inl ⟨by simp, rfl⟩
  · exact .inl ⟨by simp, rfl⟩
  · exact .inl ⟨by simp, rfl⟩
  · exact .inl ⟨by simp, rfl⟩
  · exact .inl ⟨by simp, rfl⟩
  · rw [taskTimer_text h] at hsec
    obtain rfl : n = sec := by exact_mod_cast hsec
    exact .inr ⟨h1, h2, rfl⟩

end Timers

section Delivered

variable {P T : List UInt8}

/-- A message sent for a piece of the line goes to an alive entry, with the low 32 bits of the
numbers read. -/
theorem sent_line (hP : ∀ b ∈ P, isdigit b = true) (hT : ∀ b ∈ T, isdigit b = true) {c : Cli}
    {e : LoopEnv} {p : List UInt8} (hp : p ∈ fgetsLines [] (sendTaskLine P T))
    (hr : e.reads p = true) {m : ℤ × List UInt8}
    (hm : m ∈ (mainIter c e).cli.sent.drop c.sent.length) :
    LowInRange (2 ^ 31 - 1) P ∧ LowInRange (2 ^ 31 - 1) (timerRead P T) ∧
      ∃ x ∈ (mainIter c e).polled, x.alive = true ∧ x.pid = (digitsValue P % 2 ^ 32 : ℕ) ∧
        m = (x.fd, (Command.task (digitsValue (timerRead P T) % 2 ^ 32 : ℕ)).text) := by
  have hcmd := commandOf_reads hr
  have hquiet : ∀ c', runCommand (prompted c e) e (commandOf e) = some c' → commandOf e ≠ .quit →
      c'.sent = (prompted c e).sent → False := by
    intro c' hc hne hsent
    rw [sent_mainIter hc hne, hsent, sent_prompted, List.drop_length] at hm
    cases hm
  rw [fgetsLines_sendTask hP hT] at hp
  rcases List.mem_cons.mp hp with rfl | hp
  · rw [parse_first hP hT] at hcmd
    split_ifs at hcmd with hnil hbad
    · rw [hcmd] at hquiet
      exact (hquiet _ rfl (by decide) (sent_print _ _)).elim
    · rw [hcmd] at hquiet
      exact (hquiet _ rfl (by decide) (sent_print _ _)).elim
    · rw [not_or, not_le, not_le] at hbad
      obtain ⟨hpid, hsec⟩ := hbad
      have hT' := isdigit_timerRead (P := P) hT
      have hrun : runCommand (prompted c e) e (commandOf e) = some (cmdSendTask (prompted c e)
          (toInt (strtol P).1) (toInt (strtol (timerRead P T)).1) e) := by rw [hcmd]; rfl
      rw [sent_mainIter hrun (by rw [hcmd]; simp), ← sent_prompted c e] at hm
      obtain ⟨x, hx, ha, hxpid, hmsg⟩ := sent_cmdToDriver hm
      refine ⟨(pos_toInt_iff hP).1.mp hpid, (pos_toInt_iff hT').1.mp hsec, x, ?_, ha, ?_, ?_⟩
      · rw [(mainIter_cases c e).1]
        exact hx
      · rw [hxpid, (pos_toInt_iff hP).2 hpid]
      · rw [hmsg, (pos_toInt_iff hT').2 hsec]
  · have hbehind := parse_behind hP hT hp
    rw [← hcmd] at hbehind
    rcases hbehind with h | h <;> rw [h] at hquiet
    · exact (hquiet _ rfl (by decide) rfl).elim
    · exact (hquiet _ rfl (by decide) (sent_print _ _)).elim

theorem timerRead_append (P T : List UInt8) :
    digitsValue T = digitsValue (timerRead P T) * 10 ^ (T.length - (MSGSZ - 12 - P.length))
      + digitsValue (T.drop (MSGSZ - 12 - P.length)) := by
  rw [← List.length_drop, ← digitsValue_append, timerRead, List.take_append_drop]

theorem delivers_of_not_mangled (hP : ∀ b ∈ P, isdigit b = true) (hT : ∀ b ∈ T, isdigit b = true)
    (h : ¬ Mangled P T) : DeliversTyped P T := by
  intro tr c e hrun hf p hp hr m hm d now
  obtain ⟨hpid, hsec, x, hx, ha, hxpid, rfl⟩ := sent_line hP hT hp hr hm
  have hdistinct := ((cliInv_run hrun).reapChildren e.reaped).distinct
  rw [← (mainIter_cases c e).1] at hdistinct
  rcases handleMsg_timer (show digitsValue (timerRead P T) % 2 ^ 32 < 2 ^ 31 by
    have := hsec.2.2; omega) d now with ⟨hno, heq⟩ | ⟨h1, h2, htimer⟩
  · exact ⟨fun hok => absurd hok hno, fun hok => absurd hok hno, fun _ => heq⟩
  · have hexact := not_and.mp h ⟨hpid, hsec.1, h1, h2⟩
    simp only [not_or, not_lt, not_le] at hexact
    obtain ⟨hlen, hPlt, hTlt⟩ := hexact
    have hread : timerRead P T = T := List.take_of_length_le hlen
    rw [hread] at htimer h1 h2 hTlt
    rw [Nat.mod_eq_of_lt hTlt] at htimer h1 h2
    rw [Nat.mod_eq_of_lt hPlt] at hxpid
    rw [hread, Nat.mod_eq_of_lt hTlt]
    simp only []
    refine ⟨fun _ => ⟨⟨x, hx, ha, rfl⟩, fun y hy hya hfd => ?_⟩, fun _ => htimer, fun hbad => ?_⟩
    · obtain ⟨i, hi⟩ := List.mem_iff_getElem?.mp hx
      obtain ⟨j, hj⟩ := List.mem_iff_getElem?.mp hy
      obtain rfl := hdistinct i j x y hi hj ha hya hfd.symm
      obtain rfl := Option.some.inj (hi.symm.trans hj)
      exact hxpid
    · rcases hbad with hbad | hbad
      · exact absurd ⟨h1, h2⟩ hbad
      · exact absurd hxpid (hbad x hx ha)

/-- A driver is created with a pid and socket 5. -/
def createsDriver (pid : ℤ) : LoopEnv :=
  { readsLine (ascii "create_driver\n") with spawn := some (pid, 5) }

def oneDriver (pid : ℤ) : Cli := (mainIter ⟨[], 0, [], []⟩ (createsDriver pid)).cli

theorem run_oneDriver (pid : ℤ) :
    cliLts.Run [(⟨[], 0, [], []⟩, createsDriver pid)] (oneDriver pid) := by
  have hsucc : (createsDriver pid).succeeds = true := rfl
  have hreads : (createsDriver pid).reads (ascii "create_driver\n") = true := reads_readsLine _
  have hflow : (mainIter ⟨[], 0, [], []⟩ (createsDriver pid)).flow = .again := by
    rw [flow_reads hsucc hreads, if_neg (by decide)]
  refine ⟨_, rfl, .single ⟨fun p fd h => ?_, hflow, rfl⟩⟩
  obtain ⟨-, rfl⟩ := Prod.mk.inj (Option.some.inj h)
  exact ⟨by decide, List.not_mem_nil⟩

/-- The command of the line, where something is left of both numbers. -/
theorem commandOf_line (hP : ∀ b ∈ P, isdigit b = true) (hT : ∀ b ∈ T, isdigit b = true)
    {e : LoopEnv} (hr : e.reads ((sendTaskLine P T).take (MSGSZ - 1)) = true)
    (hpid : LowInRange (2 ^ 31 - 1) P) (hsec : LowInRange (2 ^ 31 - 1) (timerRead P T)) :
    commandOf e = .sendTask (digitsValue P % 2 ^ 32 : ℕ)
      (digitsValue (timerRead P T) % 2 ^ 32 : ℕ) := by
  have hT' := isdigit_timerRead (P := P) hT
  obtain ⟨hpidPos, hpidEq⟩ := pos_toInt_iff hP
  obtain ⟨hsecPos, hsecEq⟩ := pos_toInt_iff hT'
  have hnil : ¬ LowInRange (2 ^ 31 - 1) [] := fun h => absurd h.2.1 (by decide)
  rw [commandOf_reads hr, parse_first hP hT, if_neg, if_neg, hpidEq (hpidPos.mpr hpid),
    hsecEq (hsecPos.mpr hsec)]
  · rw [not_or, not_le, not_le]
    exact ⟨hpidPos.mpr hpid, hsecPos.mpr hsec⟩
  · rintro (h | h)
    · exact hnil (h ▸ hpid)
    · exact hnil (h ▸ hsec)

theorem sent_oneDriver {k n : ℤ} {e : LoopEnv} (hcmd : commandOf e = .sendTask k n)
    (hreaped : e.reaped = []) (hsend : e.send 0 = .sent) :
    (5, (Command.task n).text)
      ∈ (mainIter (oneDriver k) e).cli.sent.drop (oneDriver k).sent.length := by
  have hrun : runCommand (prompted (oneDriver k) e) e (commandOf e)
      = some (cmdSendTask (prompted (oneDriver k) e) k n e) := by rw [hcmd]; rfl
  have hdrivers : (prompted (oneDriver k) e).drivers = [⟨k, 5, true⟩] := by
    show (reapChildren (oneDriver k) e.reaped).drivers = _
    rw [hreaped]
    rfl
  have hfind : findDriver (prompted (oneDriver k) e) k = some 0 := by
    rw [findDriver, hdrivers]
    simp
  have hget : (prompted (oneDriver k) e).drivers[0]? = some ⟨k, 5, true⟩ := by
    rw [hdrivers]
    rfl
  obtain ⟨es, hlog, -, hes⟩ := sendsTo_of_find hget rfl hfind (.task n) e
  have hsent : (cmdSendTask (prompted (oneDriver k) e) k n e).sent
      = (prompted (oneDriver k) e).sent ++ [(5, (Command.task n).text)] := by
    rw [Cli.sent, cmdSendTask, hlog, hes hsend, List.filterMap_append]
    rfl
  rw [sent_mainIter hrun (by rw [hcmd]; simp), ← sent_prompted (oneDriver k) e, hsent,
    List.drop_left]
  exact List.mem_singleton_self _

/-- A timer that is cut off or is no `int` is not the number left of it. -/
theorem timer_changed (hn : 1 ≤ digitsValue (timerRead P T) % 2 ^ 32)
    (h : MSGSZ - 12 - P.length < T.length ∨ 2 ^ 32 ≤ digitsValue (timerRead P T)) :
    digitsValue (timerRead P T) % 2 ^ 32 < digitsValue T := by
  have hsplit := timerRead_append P T
  have hmod := Nat.mod_le (digitsValue (timerRead P T)) (2 ^ 32)
  rcases h with h | h
  · have hpow : 10 ≤ 10 ^ (T.length - (MSGSZ - 12 - P.length)) :=
      Nat.le_self_pow (by omega) 10
    have hmul := Nat.mul_le_mul_left (digitsValue (timerRead P T)) hpow
    omega
  · have hlt := Nat.mod_lt (digitsValue (timerRead P T)) (Nat.two_pow_pos 32)
    have hmul := Nat.le_mul_of_pos_right (digitsValue (timerRead P T))
      (Nat.pow_pos (by decide : 0 < 10) (n := T.length - (MSGSZ - 12 - P.length)))
    omega

/-- With the driver created whose pid is left of what was typed, it takes what is left of the
timer. -/
theorem not_delivers (hP : ∀ b ∈ P, isdigit b = true) (hT : ∀ b ∈ T, isdigit b = true)
    (h : Mangled P T) : ¬ DeliversTyped P T := by
  intro hd
  obtain ⟨⟨hpid, hsec⟩, hchanged⟩ := h
  have hline := fgetsLines_sendTask hP hT
  generalize hp : (sendTaskLine P T).take (MSGSZ - 1) = p at hline
  have hreads := reads_readsLine p
  have hcmd : commandOf (readsLine p) = _ :=
    commandOf_line hP hT (hp.symm ▸ hreads) hpid ⟨hsec.1, hsec.2.1, hsec.2.2.trans (by decide)⟩
  have hfresh : FreshSocket (oneDriver (digitsValue P % 2 ^ 32 : ℕ)) (readsLine p) := by
    intro pid fd hspawn
    cases hspawn
  obtain ⟨hpidTyped, htimer, -⟩ := hd _ _ (readsLine p) (run_oneDriver _) hfresh p
    (by rw [hline]; exact List.mem_cons_self) hreads _ (sent_oneDriver hcmd rfl rfl) ⟨false, none⟩ 0
  simp only [] at hpidTyped htimer
  have hok : .ok ∈ (handleMsg ⟨false, none⟩ 0 (msgText (Command.task
      (digitsValue (timerRead P T) % 2 ^ 32 : ℕ)).text)).sends := by
    rw [handleMsg_task (asksTask_text hsec.2.1 hsec.2.2) 0]
    exact List.mem_singleton_self _
  have hpidEq : ((digitsValue P % 2 ^ 32 : ℕ) : ℤ) = digitsValue P :=
    (hpidTyped hok).2 ⟨_, 5, true⟩
      (by rw [(mainIter_cases _ _).1]; exact List.mem_singleton_self _) rfl rfl
  rcases handleMsg_timer (show digitsValue (timerRead P T) % 2 ^ 32 < 2 ^ 31 by
    have := hsec.2.2; omega) ⟨false, none⟩ 0 with ⟨hno, -⟩ | ⟨-, -, hset⟩
  · exact hno hok
  · have hnT : digitsValue (timerRead P T) % 2 ^ 32 = digitsValue T := by
      have := Option.some.inj (hset.symm.trans (htimer hok))
      exact Nat.eq_of_mul_eq_mul_right (by decide : 0 < nsPerSec) (Nat.add_left_cancel this)
    have hint : digitsValue P < 2 ^ 32 := by omega
    exact absurd (timer_changed hsec.2.1 (hchanged.imp_right fun h =>
      h.resolve_left (by omega))) (by omega)

/-- Whatever digits are typed, `send_task P T` delivers the numbers typed exactly when they are not
mangled. -/
theorem delivers_iff (hP : ∀ b ∈ P, isdigit b = true) (hT : ∀ b ∈ T, isdigit b = true) :
    DeliversTyped P T ↔ ¬ Mangled P T :=
  ⟨fun hd h => not_delivers hP hT h hd, delivers_of_not_mangled hP hT⟩

/-- `send_task 4242 60`. -/
theorem delivers_iff_minute :
    parseLine (sendTaskLine (ascii "4242") (ascii "60")) = .sendTask 4242 60 ∧
      DeliversTyped (ascii "4242") (ascii "60") := by
  have hP : (ascii "4242").all isdigit = true := by decide
  have hT : (ascii "60").all isdigit = true := by decide
  refine ⟨by decide, ?_⟩
  exact (delivers_iff (List.all_eq_true.mp hP) (List.all_eq_true.mp hT)).mpr (by decide)

/-- `send_task 4294971538 60`, a pid beyond 32 bits: the driver with pid 4242 takes the task. -/
theorem not_delivers_long_pid : ¬ DeliversTyped (ascii "4294971538") (ascii "60") := by
  have hP : (ascii "4294971538").all isdigit = true := by decide
  have hT : (ascii "60").all isdigit = true := by decide
  exact not_delivers (List.all_eq_true.mp hP) (List.all_eq_true.mp hT) (by decide)

end Delivered

end EltexSystems
