import EltexSystems.ShellSession
import EltexSystems.Proofs.Mysh

/-!
# What a session executes

For every standard input that only the shell moves, whatever its bytes, and whatever the array and
`strtok` hold between the rounds, a session of each shell ends and executes what its lines, cut at
255 bytes and at zero bytes, ask for up to the first `exit` (`shell_session`, `task3_session`); and
where no line has a bar, both execute the same (`shells_agree`).
-/

namespace EltexSystems

open CStr Strtok Mysh

/-- The line without its newline, whatever was in the array before. -/
theorem cstr_readLine_eq (old stream : List UInt8) :
    cstr (readLine old stream) = pieceText (Lines.fgets 10 (MAX_LINE - 1) stream) := by
  unfold readLine
  generalize Lines.fgets 10 (MAX_LINE - 1) stream = got
  have hline : cstr (got ++ 0 :: old.drop (got.length + 1)) = cstr got := cstr_append_nul _ _
  simp only []
  rw [cstr_set, hline, strcspn]
  have htake := List.prefix_iff_eq_take.mp
    (List.takeWhile_prefix (l := cstr got) (!(ascii "\n").contains ·))
  rw [← htake, cstr, List.takeWhile_takeWhile, pieceText]
  congr 1
  funext b
  rw [contains_newline]
  by_cases h0 : b = 0 <;> by_cases h10 : b = 10 <;> simp [h0, h10]

theorem child_exec {m : Tokenizer} {cmd : ℕ} {seg : List UInt8} (h : m.string cmd = seg)
    (input output : Stream) : child m cmd input output = some (execOf seg input output) :=
  child_eq h input output

/-- What a line makes the pipe shell execute. -/
theorem runLine_execs (line : List UInt8) (save : ℕ) :
    runLine line save = some (lineExecs (cstr line)) := by
  have hstart : (Tokenizer.mk line save).string ((some 0 : Option ℕ).getD save) = cstr line := rfl
  generalize cstr line = l at hstart
  unfold runLine lineExecs
  simp only []
  rcases htok : tokens ((ascii "|").contains ·) l with _ | ⟨a, ts⟩
  · -- nothing but bars, which stay as they are
    obtain ⟨hnull, hbuf⟩ := strtok_nil_next (ascii "|") (some 0) ⟨line, save⟩
      (by rw [hstart, htok])
    rw [hnull]
    have hbars : ∀ b ∈ l, (ascii "|").contains b = true := tokens_eq_nil_iff.mp htok
    refine child_exec ?_ _ _
    rw [List.takeWhile_eq_self_iff.mpr hbars, List.dropWhile_eq_nil_iff.mpr hbars,
      List.takeWhile_nil, List.append_nil, string_congr hbuf]
    exact hstart
  obtain ⟨hptr, hclosed, hrest⟩ := strtok_cons (ascii "|") (some 0) ⟨line, save⟩
    (by rw [hstart]; exact htok)
  have hfront := strtok_front (ascii "|") (some 0) ⟨line, save⟩ (by
    rw [hstart]
    intro hnil
    rw [tokens_eq_nil hnil] at htok
    cases htok)
  rw [hstart] at hptr hclosed hfront
  rw [Option.getD_some, Nat.zero_add] at hptr hclosed
  generalize strtok (ascii "|") (some 0) ⟨line, save⟩ = first at *
  rcases ts with _ | ⟨b, ts⟩
  · obtain ⟨hnull, -, -⟩ := strtok_nil (ascii "|") none first.2 hrest
    rw [hnull]
    exact child_exec (strtok_closed _ hfront).string _ _
  · obtain ⟨hptr', hclosed', -⟩ := strtok_cons (ascii "|") none first.2 hrest
    rw [hptr', hptr]
    simp only []
    rw [Option.bind_some, child_exec (strtok_closed _ hclosed).string, Option.bind_some,
      child_exec hclosed'.string]
    rfl

/-- A loop whose rounds act on the text of a piece executes what the texts ask for. -/
theorem shellLoop_eq {round : List UInt8 → ℕ → List UInt8 → Option Round}
    {execs : List UInt8 → List Exec}
    (hround : ∀ old save stream, round old save stream =
      if stream = [] then some .stop
      else if pieceText (Lines.fgets 10 (MAX_LINE - 1) stream) = ascii "exit" then some .stop
      else some (.ran (execs (pieceText (Lines.fgets 10 (MAX_LINE - 1) stream)))))
    (keep : ℕ → List UInt8 × ℕ) : ∀ (fuel i : ℕ) (stream : List UInt8), stream.length < fuel →
      shellLoop round keep fuel i stream = some ((shellTexts stream).map execs) := by
  intro fuel
  induction fuel with
  | zero => exact fun i stream h => absurd h (Nat.not_lt_zero _)
  | succ fuel ih =>
    intro i stream hlen
    rw [shellLoop, hround]
    by_cases hnil : stream = []
    · rw [if_pos hnil, hnil]
      rfl
    have hpos : 0 < MAX_LINE - 1 := by decide
    have hne : 0 < (Lines.fgets 10 (MAX_LINE - 1) stream).length :=
      List.length_pos_iff.mpr (Lines.fgets_ne_nil hpos hnil)
    have hle : (Lines.fgets 10 (MAX_LINE - 1) stream).length ≤ stream.length :=
      (Lines.fgets_prefix _ _).length_le
    rw [if_neg hnil, shellTexts, Lines.pieces_eq hpos hnil, List.map_cons]
    by_cases hexit : pieceText (Lines.fgets 10 (MAX_LINE - 1) stream) = ascii "exit"
    · rw [if_pos hexit, List.takeWhile_cons_of_neg (by simpa using hexit)]
      rfl
    · rw [if_neg hexit, Option.bind_some, List.takeWhile_cons_of_pos (by simpa using hexit)]
      simp only []
      rw [ih _ _ (by rw [List.length_drop]; omega)]
      rfl

/-- A session of `channels/interpreter.c` ends, and executes for each line up to `exit` what
`lineExecs` says. -/
theorem shell_session (keep : ℕ → List UInt8 × ℕ) (stream : List UInt8) :
    shellLoop Mysh.round keep (stream.length + 1) 0 stream
      = some ((shellTexts stream).map lineExecs) := by
  refine shellLoop_eq (fun old save stream => ?_) keep _ 0 stream (Nat.lt_succ_self _)
  unfold Mysh.round
  rw [cstr_readLine_eq, runLine_execs, cstr_readLine_eq]
  rfl

/-- A session of `processes/task3.c` ends, and executes the first 63 words of each line up to
`exit`. -/
theorem task3_session (keep : ℕ → List UInt8 × ℕ) (stream : List UInt8) :
    shellLoop Task3.round keep (stream.length + 1) 0 stream
      = some ((shellTexts stream).map fun text => execOf text .inherited .inherited) := by
  refine shellLoop_eq (fun old save stream => ?_) keep _ 0 stream (Nat.lt_succ_self _)
  have hline : Tokenizer.string ⟨readLine old stream, save⟩ 0 = _ := cstr_readLine_eq old stream
  unfold Task3.round
  rw [child_exec hline, cstr_readLine_eq]
  rfl

/-- A text without a bar is one command. -/
theorem lineExecs_of_notMem {text : List UInt8} (h : 124 ∉ text) :
    lineExecs text = execOf text .inherited .inherited := by
  have hbar : ∀ b ∈ text, (ascii "|").contains b = false := by
    intro b hb
    rw [contains_bar]
    exact beq_false_of_ne fun he => h (he ▸ hb)
  have hspan : text.takeWhile ((ascii "|").contains ·)
      ++ (text.dropWhile ((ascii "|").contains ·)).takeWhile (!(ascii "|").contains ·) = text := by
    rcases text with _ | ⟨b, text⟩
    · rfl
    · have hb := hbar b List.mem_cons_self
      rw [List.takeWhile_cons_of_neg (by rw [hb]; decide),
        List.dropWhile_cons_of_neg (by rw [hb]; decide), List.nil_append,
        List.takeWhile_eq_self_iff]
      intro c hc
      rw [hbar c hc]
      rfl
  unfold lineExecs
  by_cases hnil : text = []
  · rw [hnil]
    rfl
  · rw [tokens_of_forall hbar hnil]
    simp only [hspan]

/-- Where the input has no bar, the two shells execute the same. -/
theorem shells_agree (keep keep' : ℕ → List UInt8 × ℕ) {stream : List UInt8} (h : 124 ∉ stream) :
    shellLoop Mysh.round keep (stream.length + 1) 0 stream
      = shellLoop Task3.round keep' (stream.length + 1) 0 stream := by
  rw [shell_session, task3_session, Option.some_inj]
  refine List.map_congr_left fun text htext => lineExecs_of_notMem fun hbar => h ?_
  obtain ⟨piece, hpiece, rfl⟩ := List.mem_map.mp ((List.takeWhile_prefix _).subset htext)
  have hpieces : (Lines.pieces 10 (MAX_LINE - 1) stream).flatten = stream :=
    Lines.flatten_pieces _ _
  rw [← hpieces]
  exact List.mem_flatten.mpr ⟨piece, hpiece, (List.takeWhile_prefix _).subset hbar⟩

theorem shells_agree_ls :
    shellLoop Mysh.round (fun _ => ([], 0)) 7 0 (ascii "ls -l\n")
      = shellLoop Task3.round (fun _ => ([], 0)) 7 0 (ascii "ls -l\n") :=
  shells_agree _ _ (by decide)

end EltexSystems
