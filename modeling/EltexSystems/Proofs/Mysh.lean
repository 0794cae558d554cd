import EltexSystems.Mysh

/-!
# What the pipe shell executes

The loop of `parse_cmd` stores the words in order and keeps each as it is (`fillArgs_eq`), so a
child executes the words of its segment, or nothing where it is blank (`child_eq`).  The line is in
the array up to its `NUL` (`cstr_readLine`), and the first two segments that are not empty are what
`strtok` finds of it.
-/

namespace EltexSystems.Mysh

open CStr Strtok

variable {m : Tokenizer} {l seg : List UInt8} {vs ws : List (List UInt8)} {ps : List ℕ}

section Delimiters

theorem contains_byte {delim : List UInt8} {c : UInt8} (h : delim = [c]) (b : UInt8) :
    delim.contains b = (b == c) := by
  rw [h, List.contains_cons, List.contains_nil, Bool.or_false]

theorem contains_blank (b : UInt8) : (ascii " ").contains b = (b == 32) :=
  contains_byte (by decide) b

theorem contains_bar (b : UInt8) : (ascii "|").contains b = (b == 124) :=
  contains_byte (by decide) b

theorem contains_newline (b : UInt8) : (ascii "\n").contains b = (b == 10) :=
  contains_byte (by decide) b

end Delimiters

section Args

/-- The array with some pointers in it. -/
def slots (ps : List ℕ) (rest : List Slot) : List Slot := ps.map .ptr ++ rest

theorem store_slots (ps : List ℕ) (v w : Slot) (rest : List Slot) :
    store (slots ps (v :: rest)) ps.length w = some (ps.map .ptr ++ w :: rest) := by
  have hset : (slots ps (v :: rest)).set ps.length w = ps.map .ptr ++ w :: rest := by
    rw [slots, List.set_append_right _ _ (by rw [List.length_map]), List.length_map, Nat.sub_self]
    rfl
  rw [store, hset, if_pos]
  rw [slots, List.length_append, List.length_map, List.length_cons]
  omega

/-- A token that has been found, with those to come. -/
inductive Pending (m : Tokenizer) : Option ℕ → List (List UInt8) → Prop
  | none : Pending m none []
  | some {p : ℕ} {w : List UInt8} {ws : List (List UInt8)} : Closed m p w →
    tokens ((ascii " ").contains ·) (m.string m.save) = ws → Pending m (some p) (w :: ws)

theorem pending_strtok {str : Option ℕ}
    (h : tokens ((ascii " ").contains ·) (m.string (str.getD m.save)) = ws) :
    Pending (strtok (ascii " ") str m).2 (strtok (ascii " ") str m).1 ws := by
  rcases ws with _ | ⟨w, ws⟩
  · obtain ⟨hnull, -, -⟩ := strtok_nil _ _ _ h
    rw [hnull]
    exact .none
  · obtain ⟨hptr, hclosed, hrest⟩ := strtok_cons _ _ _ h
    rw [hptr]
    exact .some hclosed hrest

/-- The loop fills the array with the words to come, as far as there is room, and the `NULL` behind
them. -/
theorem fillArgs_eq : ∀ (n : ℕ) {ps : List ℕ} {vs ws : List (List UInt8)} {token : Option ℕ}
    {m : Tokenizer}, Pending m token ws → List.Forall₂ (Closed m) ps vs →
    ∃ ps' m' rest, fillArgs n ps.length token (slots ps (List.replicate (n + 1) .unset)) m
        = some (slots ps' (.null :: rest), m')
      ∧ List.Forall₂ (Closed m') ps' (vs ++ ws.take n)
  | 0, ps, vs, ws, token, m, hp, hps => by
    refine ⟨ps, m, [], ?_, by rwa [List.take_zero, List.append_nil]⟩
    rw [fillArgs, List.replicate_succ, store_slots]
    rfl
  | n + 1, ps, vs, ws, token, m, hp, hps => by
    cases hp with
    | none =>
      refine ⟨ps, m, List.replicate (n + 1) .unset, ?_, by rwa [List.take_nil, List.append_nil]⟩
      rw [fillArgs, List.replicate_succ, store_slots]
      rfl
    | @some p w ws hclosed hrest =>
      have hps' : List.Forall₂ (Closed (strtok (ascii " ") none m).2) (ps ++ [p]) (vs ++ [w]) :=
        List.rel_append (hps.imp fun _ _ => strtok_closed _) (.cons (strtok_closed _ hclosed) .nil)
      obtain ⟨ps', m', rest, hfill, hall⟩ := fillArgs_eq n (pending_strtok hrest) hps'
      refine ⟨ps', m', rest, ?_, ?_⟩
      · have hslots : (ps.map Slot.ptr ++ .ptr p :: List.replicate (n + 1) .unset)
            = slots (ps ++ [p]) (List.replicate (n + 1) .unset) := by
          rw [slots, List.map_append, List.append_assoc]
          rfl
        rw [List.length_append, List.length_singleton] at hfill
        rw [fillArgs, List.replicate_succ, store_slots, Option.bind_some, hslots, hfill]
      · rw [List.append_assoc, List.singleton_append] at hall
        rwa [List.take_succ_cons]

theorem readArgv_slots {rest : List Slot} (h : List.Forall₂ (Closed m) ps vs) :
    readArgv m (slots ps (.null :: rest)) = some vs := by
  induction h with
  | nil => rfl
  | @cons p w ps vs hclosed _ ih =>
    have hcons : slots (p :: ps) (.null :: rest) = .ptr p :: slots ps (.null :: rest) := rfl
    rw [hcons, readArgv, ih, hclosed.string]
    rfl

theorem words_eq (seg : List UInt8) : words seg = tokens ((ascii " ").contains ·) seg := by
  have hp : ((ascii " ").contains · : UInt8 → Bool) = (· == 32) := funext contains_blank
  rw [words, tokens, hp]
  rfl

/-- A child executes the words of its segment, or nothing. -/
theorem child_eq {cmd : ℕ} (h : m.string cmd = seg) (input output : Stream) :
    child m cmd input output
      = some (if words seg = [] then [] else [⟨(words seg).take 63, input, output⟩]) := by
  have hpending : Pending (strtok (ascii " ") (some cmd) m).2 (strtok (ascii " ") (some cmd) m).1
      (words seg) := pending_strtok (by rw [words_eq, Option.getD_some, h])
  obtain ⟨ps, m', rest, hfill, hall⟩ := fillArgs_eq (MAX_ARGS - 1) hpending (.nil (R := Closed _))
  have hparse : parseCmd cmd m = some (slots ps (.null :: rest), m') := hfill
  rw [List.nil_append] at hall
  rw [child, hparse, Option.bind_some, readArgv_slots hall, Option.map_some]
  have hiff : (words seg).take (MAX_ARGS - 1) = [] ↔ words seg = [] := by
    rw [List.take_eq_nil_iff]
    exact or_iff_right (by decide)
  simp only [hiff]
  rfl

end Args

section Line

variable {more : List UInt8}

theorem fgets_more (h10 : 10 ∉ l) (hmore : more = [] ∨ more.head? = some 10)
    (hlen : l.length ≤ 254) :
    ∃ nl, (nl = [] ∨ nl = [10]) ∧ Lines.fgets 10 (MAX_LINE - 1) (l ++ more) = l ++ nl := by
  rcases hmore with rfl | hmore
  · refine ⟨[], .inl rfl, ?_⟩
    rw [List.append_nil]
    exact Lines.fgets_rest h10 (hlen.trans (by decide))
  · obtain ⟨rest, rfl⟩ := List.head?_eq_some_iff.mp hmore
    exact ⟨[10], .inr rfl, Lines.fgets_line h10 (Nat.lt_of_le_of_lt hlen (by decide)) rest⟩

/-- The array holds the line, up to the `NUL`. -/
theorem cstr_readLine (old : List UInt8) (h0 : 0 ∉ l) (h10 : 10 ∉ l)
    (hmore : more = [] ∨ more.head? = some 10) (hlen : l.length ≤ 254) :
    cstr (readLine old (l ++ more)) = l := by
  obtain ⟨nl, hnl, hgot⟩ := fgets_more h10 hmore hlen
  have hclean : ∀ b ∈ l ++ nl, b ≠ 0 := by
    rintro b hb rfl
    rcases List.mem_append.mp hb with hb | hb
    · exact h0 hb
    · rcases hnl with rfl | rfl
      · cases hb
      · exact absurd hb (by decide)
  have hcstr : ∀ rest, cstr (l ++ nl ++ 0 :: rest) = l ++ nl := by
    intro rest
    rw [cstr_append_nul, cstr_of_ne_zero hclean]
  have hspn : strcspn (l ++ nl) (ascii "\n") = l.length := by
    have hp : ∀ b ∈ l, (!(ascii "\n").contains b) = true := by
      intro b hb
      rw [contains_newline, Bool.not_eq_true', beq_eq_false_iff_ne]
      rintro rfl
      exact h10 hb
    rw [strcspn, List.takeWhile_append_of_pos hp]
    rcases hnl with rfl | rfl
    · rw [List.takeWhile_nil, List.append_nil]
    · rw [List.takeWhile_cons_of_neg (by decide), List.append_nil]
  unfold readLine
  simp only []
  rw [hgot, hcstr, hspn, cstr_set, hcstr, List.take_left]

end Line

section Rounds

theorem segments_eq (l : List UInt8) :
    (segments l).filter (!·.isEmpty) = tokens ((ascii "|").contains ·) l := by
  have hp : ((ascii "|").contains · : UInt8 → Bool) = (· == 124) := funext contains_bar
  rw [tokens, hp]
  rfl

theorem words_eq_nil_iff : words seg = [] ↔ nonblank seg = false := by
  rw [words_eq, tokens_eq_nil_iff, nonblank, List.any_eq_false]
  refine forall₂_congr fun b _ => ?_
  rw [contains_blank, bne_iff_ne, beq_iff_eq, not_not]

theorem commands_eq (l : List UInt8) : commands l
    = ((tokens ((ascii "|").contains ·) l).filter nonblank).map words := by
  rw [commands, ← segments_eq, List.filter_filter]
  congr 1
  refine List.filter_congr fun seg _ => ?_
  rcases seg with _ | ⟨b, seg⟩
  · rfl
  · simp

/-- Without a bar in front the string at the start of the line is what the first call finds, also
where that is nothing. -/
theorem child_line {a : List UInt8} {m : Tokenizer} (h : m.string 0 = a)
    (hl : (tokens ((ascii "|").contains ·) l).filter nonblank = [a].filter nonblank) :
    child m 0 .inherited .inherited
      = some (wire (((commands l).take 2).map (·.take 63))) := by
  rw [child_eq h, commands_eq, hl]
  cases hblank : nonblank a
  · rw [if_pos (words_eq_nil_iff.mpr hblank), List.filter_cons_of_neg (by rw [hblank]; decide)]
    rfl
  · have hne : words a ≠ [] := by
      rw [Ne, words_eq_nil_iff, hblank]
      decide
    rw [if_neg hne, List.filter_cons_of_pos hblank]
    rfl

theorem strspn_front (h : l.head? ≠ some 124) : strspn l (ascii "|") = 0 := by
  rcases l with _ | ⟨b, l⟩
  · rfl
  · have hb : ¬ (ascii "|").contains b = true := by
      rw [contains_bar, beq_iff_eq]
      rintro rfl
      exact h rfl
    rw [strspn, List.takeWhile_cons_of_neg hb]
    rfl

/-- A line of bars has one in front. -/
theorem eq_nil_of_tokens (hfront : l.head? = some 124 → 2 ≤
      (tokens ((ascii "|").contains ·) l).length)
    (htok : tokens ((ascii "|").contains ·) l = []) : l = [] := by
  by_contra hne
  obtain ⟨b, l', rfl⟩ := List.exists_cons_of_ne_nil hne
  have hb := tokens_eq_nil_iff.mp htok b List.mem_cons_self
  rw [contains_bar, beq_iff_eq] at hb
  rw [htok] at hfront
  exact absurd (hfront (by rw [hb]; rfl)) (by decide)

/-- What is executed for a line in the array. -/
theorem runLine_eq {line : List UInt8} (hline : cstr line = l) (hreg : Regular l) (save : ℕ) :
    runLine line save = some (wire (((commands l).take 2).map (·.take 63))) := by
  have hstart : (Tokenizer.mk line save).string ((some 0 : Option ℕ).getD save) = l := hline
  obtain ⟨hfront, hblank⟩ := hreg
  rw [segments_eq] at hfront hblank
  unfold runLine
  simp only []
  rcases htok : tokens ((ascii "|").contains ·) l with _ | ⟨a, ts⟩
  · -- nothing but bars, so nothing at all
    obtain ⟨hnull, hbuf⟩ := strtok_nil_next (ascii "|") (some 0) ⟨line, save⟩
      (by rw [hstart, htok])
    rw [hnull]
    refine child_line (a := l) ?_ (by rw [htok, eq_nil_of_tokens hfront htok]; rfl)
    rw [string_congr hbuf]
    exact hline
  obtain ⟨hptr, hclosed, hrest⟩ := strtok_cons (ascii "|") (some 0) ⟨line, save⟩
    (by rw [hstart]; exact htok)
  rw [hstart] at hptr hclosed
  rw [Option.getD_some, Nat.zero_add] at hptr hclosed
  generalize strtok (ascii "|") (some 0) ⟨line, save⟩ = first at *
  rcases ts with _ | ⟨b, ts⟩
  · -- one segment, at the front of the line
    obtain ⟨hnull, -, -⟩ := strtok_nil (ascii "|") none first.2 hrest
    have hspn := strspn_front (l := l) fun hbar => by
      have htwo := hfront hbar
      rw [htok] at htwo
      exact Nat.not_succ_le_self 1 htwo
    rw [hspn] at hclosed
    rw [hnull]
    exact child_line (strtok_closed _ hclosed).string (by rw [htok])
  · -- two children, each with its segment
    obtain ⟨hptr', hclosed', -⟩ := strtok_cons (ascii "|") none first.2 hrest
    have hboth : ∀ seg ∈ [a, b], nonblank seg = true := by
      rw [htok] at hblank
      exact hblank (by rw [List.length_cons, List.length_cons]; omega)
    have ha := hboth a List.mem_cons_self
    have hb := hboth b (List.mem_cons_of_mem _ List.mem_cons_self)
    have hwords : ∀ seg, nonblank seg = true → words seg ≠ [] := by
      intro seg hseg hnil
      rw [words_eq_nil_iff, hseg] at hnil
      cases hnil
    rw [hptr', hptr]
    simp only []
    rw [Option.bind_some, child_eq (strtok_closed _ hclosed).string, Option.bind_some,
      child_eq hclosed'.string, Option.map_some, if_neg (hwords a ha), if_neg (hwords b hb),
      commands_eq, htok, List.filter_cons_of_pos ha, List.filter_cons_of_pos hb]
    rfl

/-- For a line of the kind that the shell is written for the first two commands are executed, each
with up to 63 of its words, the first one's output the input of the second. -/
theorem round_runs (old l more : List UInt8) (save : ℕ) (h0 : 0 ∉ l) (h10 : 10 ∉ l)
    (hlen : l.length ≤ 254) (hmore : more = [] ∨ more.head? = some 10) (hne : l ++ more ≠ [])
    (hexit : l ≠ ascii "exit") (hreg : Regular l) :
    round old save (l ++ more) = some (.ran (wire (((commands l).take 2).map (·.take 63)))) := by
  have hline := cstr_readLine old h0 h10 hmore hlen
  rw [round, if_neg hne, hline, if_neg hexit, runLine_eq hline hreg]
  rfl

theorem round_runs_ls : round [] 0 (ascii "ls -l | wc\n") = some (.ran
    [⟨[ascii "ls", ascii "-l"], .inherited, .pipe 0⟩, ⟨[ascii "wc"], .pipe 0, .inherited⟩]) :=
  (round_runs [] (ascii "ls -l | wc") (ascii "\n") 0 (by decide) (by decide) (by decide)
    (.inr (by decide)) (by decide) (by decide) ⟨by decide, by decide⟩).trans (by decide)

/-- A third command is not executed. -/
theorem third_command_dropped : ¬ ∀ (old l more : List UInt8) (save : ℕ), 0 ∉ l → 10 ∉ l →
    l.length ≤ 254 → (more = [] ∨ more.head? = some 10) → l ++ more ≠ [] → l ≠ ascii "exit" →
    round old save (l ++ more) = some (.ran (wire (commands l))) := by
  intro h
  exact absurd (h [] (ascii "a|b|c") (ascii "\n") 0 (by decide) (by decide) (by decide)
    (.inr (by decide)) (by decide) (by decide)) (by decide)

end Rounds

end EltexSystems.Mysh
