import EltexSystems.CheckString

/-!
# Which searches are right

With a newline behind it the pattern is found where it is a prefix of the rest of the text
(`inner_prefix`), so the search finds it exactly where it occurs (`outer_infix`).  Without the
newline nothing is ever found (`not_found_outer`), and no read leaves the buffers unless the two are
equal (`outer_inside`).
-/

namespace EltexSystems

open CStr CheckedMem

namespace Search

variable {t s : List UInt8} {i j n : ℕ}

theorem load8_drop (m : List UInt8) (j : ℕ) : load8 m j = (m.drop j).head? := by
  rw [load8, List.head?_drop]

/-- The inner loop finds a pattern that ends in a newline when it begins what is left of the
text. -/
theorem inner_prefix : ∀ (n j : ℕ) {q rest text : List UInt8}, t.drop (i + j) = text →
    text.length = n → s.drop j = q ++ 10 :: rest → q ≠ [] → 10 ∉ q →
    ∃ out, inner t s i n j = some ⟨out, decide (q <+: text)⟩
  | 0, j, q, rest, text, _, hlen, _, hne, _ => by
    rw [List.eq_nil_of_length_eq_zero hlen]
    exact ⟨[], by rw [decide_eq_false (by rwa [List.prefix_nil])]; rfl⟩
  | n + 1, j, [], rest, text, _, _, _, hne, _ => absurd rfl hne
  | n + 1, j, b :: q, rest, [], _, hlen, _, _, _ => by cases hlen
  | n + 1, j, b :: q, rest, a :: text, ht, hlen, hs, _, hq => by
    have htail : t.drop (i + (j + 1)) = text := by
      rw [← Nat.add_assoc, ← List.tail_drop, ht, List.tail_cons]
    have hstail : s.drop (j + 1) = q ++ 10 :: rest := by
      rw [← List.tail_drop, hs, List.cons_append, List.tail_cons]
    rw [inner, load8_drop t, ht, load8_drop s, hs, List.cons_append, List.head?_cons,
      Option.bind_some, List.head?_cons, Option.bind_some]
    by_cases hab : a = b
    · rw [if_pos hab, load8_drop, hstail]
      rcases q with _ | ⟨c, q⟩
      · rw [List.nil_append, List.head?_cons, Option.bind_some, if_pos rfl]
        exact ⟨_, by rw [decide_eq_true (by rw [hab]; exact ⟨text, rfl⟩)]⟩
      · have hc : c ≠ 10 := by
          rintro rfl
          exact hq (by simp)
        obtain ⟨out, hout⟩ := inner_prefix n (j + 1) htail (Nat.succ.inj hlen) hstail
          (List.cons_ne_nil c q) fun hm => hq (List.mem_cons_of_mem _ hm)
        rw [List.cons_append, List.head?_cons, Option.bind_some, if_neg hc, hout]
        refine ⟨b :: out, ?_⟩
        have hiff : b :: c :: q <+: a :: text ↔ c :: q <+: text := by
          rw [List.cons_prefix_cons]
          exact and_iff_right hab.symm
        rw [decide_eq_decide.mpr hiff]
        rfl
    · have hnot : ¬ b :: q <+: a :: text := by
        rw [List.cons_prefix_cons]
        exact fun h => hab h.1.symm
      rw [if_neg hab, decide_eq_false hnot]
      exact ⟨[], rfl⟩

/-- The search finds a pattern that ends in a newline where it occurs. -/
theorem outer_infix {q rest : List UInt8} (hs : s = q ++ 10 :: rest) (hne : q ≠ [])
    (hq : 10 ∉ q) (ht : t.length = string_size) : ∀ (n i : ℕ) {text : List UInt8},
    t.drop i = text → i + n = string_size →
    ∃ out, outer t s n i = some ⟨out, decide (q <:+: text)⟩
  | 0, i, text, htext, hn => by
    have hnil : text = [] := by
      rw [← htext]
      exact List.drop_eq_nil_of_le (by omega)
    rw [hnil]
    exact ⟨_, by rw [decide_eq_false (by rwa [List.infix_nil])]; rfl⟩
  | n + 1, i, text, htext, hn => by
    have hlen : text.length = string_size - i := by rw [← htext, List.length_drop, ht]
    rcases text with _ | ⟨a, text⟩
    · rw [List.length_nil] at hlen
      omega
    have htail : t.drop (i + 1) = text := by rw [← List.tail_drop, htext, List.tail_cons]
    obtain ⟨b, q', rfl⟩ := List.exists_cons_of_ne_nil hne
    obtain ⟨rout, hrest⟩ := outer_infix hs hne hq ht n (i + 1) htail (by omega)
    obtain ⟨iout, hinner⟩ : ∃ out, inner t s i (string_size - i) 0
        = some ⟨out, decide (b :: q' <+: a :: text)⟩ := inner_prefix _ 0 htext hlen hs hne hq
    have hb : load8 s 0 = some b := by
      rw [load8_drop, List.drop_zero, hs]
      rfl
    rw [outer, load8_drop t, htext, List.head?_cons, Option.bind_some, hb, Option.bind_some, hinner,
      Option.bind_some, hrest]
    by_cases hab : a = b
    · rw [if_pos hab]
      by_cases hpre : b :: q' <+: a :: text
      · rw [decide_eq_true hpre, decide_eq_true (List.infix_cons_iff.mpr (.inl hpre)), if_pos rfl]
        exact ⟨_, rfl⟩
      · have hiff : b :: q' <:+: a :: text ↔ b :: q' <:+: text := by
          rw [List.infix_cons_iff]
          exact or_iff_right hpre
        rw [decide_eq_false hpre, if_neg Bool.false_ne_true, decide_eq_decide.mpr hiff]
        exact ⟨_, rfl⟩
    · have hiff : b :: q' <:+: a :: text ↔ b :: q' <:+: text := by
        rw [List.infix_cons_iff, List.cons_prefix_cons]
        exact or_iff_right fun h => hab h.1.symm
      rw [if_neg hab, decide_eq_decide.mpr hiff]
      exact ⟨_, rfl⟩

theorem not_found_inner (h : ∀ j, s[j + 1]? ≠ some 10) : ∀ (n j : ℕ) {out : Search},
    inner t s i n j = some out → out.found = false
  | 0, j, out, hout => by
    obtain rfl := Option.some.inj hout
    rfl
  | n + 1, j, out, hout => by
    rw [inner] at hout
    obtain ⟨a, -, hout⟩ := Option.bind_eq_some_iff.mp hout
    obtain ⟨b, -, hout⟩ := Option.bind_eq_some_iff.mp hout
    split_ifs at hout with hab
    · obtain ⟨c, hc, hout⟩ := Option.bind_eq_some_iff.mp hout
      split_ifs at hout with h10
      · exact absurd (h10 ▸ hc) (h j)
      · obtain ⟨o, ho, rfl⟩ := Option.map_eq_some_iff.mp hout
        have hfound := not_found_inner h n (j + 1) ho
        exact hfound
    · obtain rfl := Option.some.inj hout
      rfl

/-- Without a newline behind its first character the pattern is not found. -/
theorem not_found_outer (h : ∀ j, s[j + 1]? ≠ some 10) : ∀ (n i : ℕ) {out : Search},
    outer t s n i = some out → out.found = false
  | 0, i, out, hout => by
    obtain rfl := Option.some.inj hout
    rfl
  | n + 1, i, out, hout => by
    rw [outer] at hout
    obtain ⟨a, -, hout⟩ := Option.bind_eq_some_iff.mp hout
    obtain ⟨b, -, hout⟩ := Option.bind_eq_some_iff.mp hout
    split_ifs at hout with hab
    · obtain ⟨r, hr, hout⟩ := Option.bind_eq_some_iff.mp hout
      rw [not_found_inner h _ _ hr, if_neg Bool.false_ne_true] at hout
      obtain ⟨o, ho, rfl⟩ := Option.map_eq_some_iff.mp hout
      have hfound := not_found_outer h n (i + 1) ho
      exact hfound
    · exact not_found_outer h n (i + 1) hout

theorem drop_eq_of_succ {l l' : List UInt8} (hget : l[j]? = l'[j]?)
    (hdrop : l.drop (j + 1) = l'.drop (j + 1)) : l.drop j = l'.drop j := by
  refine List.ext_getElem? fun k => ?_
  rcases k with _ | k
  · rw [List.getElem?_drop, List.getElem?_drop, Nat.add_zero, hget]
  · have hk := congrArg (·[k]?) hdrop
    simp only [List.getElem?_drop] at hk
    rwa [List.getElem?_drop, List.getElem?_drop, Nat.add_comm k, ← Nat.add_assoc]

/-- The look ahead leaves the pattern's buffer only when both buffers have been compared to their
ends. -/
theorem inner_inside (ht : t.length = string_size) (hs : s.length = string_size) : ∀ (n j : ℕ),
    i + j + n = string_size → (i = 0 → t.drop j ≠ s.drop j) → ∃ out, inner t s i n j = some out
  | 0, _, _, _ => ⟨_, rfl⟩
  | n + 1, j, hn, hdiff => by
    obtain ⟨a, ha⟩ : ∃ a, load8 t (i + j) = some a := ⟨_, load8_eq (by omega)⟩
    obtain ⟨b, hb⟩ : ∃ b, load8 s j = some b := ⟨_, load8_eq (by omega)⟩
    rw [inner, ha, Option.bind_some, hb, Option.bind_some]
    split_ifs with hab
    · have hnext : i = 0 → t.drop (j + 1) ≠ s.drop (j + 1) := by
        rintro rfl heq
        rw [Nat.zero_add] at ha
        exact hdiff rfl (drop_eq_of_succ (ha.trans (hab ▸ hb.symm)) heq)
      have hroom : j + 1 < s.length := by
        by_contra hfull
        refine hnext (by omega) ?_
        rw [List.drop_eq_nil_of_le (by omega), List.drop_eq_nil_of_le (by omega)]
      obtain ⟨c, hc⟩ : ∃ c, load8 s (j + 1) = some c := ⟨_, load8_eq hroom⟩
      rw [hc, Option.bind_some]
      split_ifs
      · exact ⟨_, rfl⟩
      · obtain ⟨out, hout⟩ := inner_inside ht hs n (j + 1) (by omega) hnext
        exact ⟨_, by rw [hout]; rfl⟩
    · exact ⟨_, rfl⟩

theorem outer_inside (ht : t.length = string_size) (hs : s.length = string_size) (hne : t ≠ s) :
    ∀ (n i : ℕ), i + n = string_size → ∃ out, outer t s n i = some out
  | 0, _, _ => ⟨_, rfl⟩
  | n + 1, i, hn => by
    obtain ⟨a, ha⟩ : ∃ a, load8 t i = some a := ⟨_, load8_eq (by omega)⟩
    obtain ⟨b, hb⟩ : ∃ b, load8 s 0 = some b := ⟨_, load8_eq (by omega)⟩
    obtain ⟨r, hr⟩ := inner_inside (i := i) ht hs (string_size - i) 0 (by omega)
      (fun _ => by rwa [List.drop_zero, List.drop_zero])
    obtain ⟨out, hout⟩ := outer_inside ht hs hne n (i + 1) (by omega)
    rw [outer, ha, Option.bind_some, hb, Option.bind_some, hr, Option.bind_some, hout]
    split_ifs
    · exact ⟨_, rfl⟩
    · exact ⟨_, rfl⟩
    · exact ⟨_, rfl⟩

section Buffers

variable {line : List UInt8}

theorem lineText_of_notMem (h : 10 ∉ line) : lineText line = line := by
  refine List.takeWhile_eq_self_iff.mpr fun b hb => ?_
  rw [decide_eq_true_eq]
  rintro rfl
  exact h hb

theorem not_mem_lineText (line : List UInt8) : 10 ∉ lineText line := by
  intro h
  simpa using List.mem_takeWhile_imp h

/-- A line is its text, with a newline where there is one. -/
theorem Stored.cases (h : Stored line) : 10 ∉ line ∧ line = lineText line
    ∨ 10 ∈ line ∧ line = lineText line ++ [10] := by
  obtain ⟨-, stream, rfl⟩ := h
  rcases (Lines.fgets_spec (string_size - 1) stream).2 with hnone | ⟨body, heq, hnone⟩
  · exact .inl ⟨hnone, (lineText_of_notMem hnone).symm⟩
  · have htext : lineText (body ++ [10]) = body := by
      have hne : ∀ b ∈ body, decide (b ≠ 10) = true := by
        rintro b hb
        rw [decide_eq_true_eq]
        rintro rfl
        exact hnone hb
      rw [lineText, List.takeWhile_append_of_pos hne]
      simp
    rw [heq, htext]
    exact .inr ⟨by simp, rfl⟩

theorem Stored.length (h : Stored line) : line.length < string_size := by
  obtain ⟨-, stream, rfl⟩ := h
  exact Nat.lt_of_le_of_lt (Lines.fgets_spec _ stream).1 (by decide)

theorem length_buffer (h : Stored line) : (buffer line).length = string_size := by
  have hlen := h.length
  rw [buffer, List.length_append, List.length_replicate]
  omega

/-- Behind the text of a line lies a newline or a `NUL`, and only `NUL`s follow. -/
theorem buffer_eq (h : Stored line) : ∃ a k, (a = 0 ∨ a = 10) ∧ (10 ∈ line → a = 10)
    ∧ buffer line = lineText line ++ a :: List.replicate k 0 := by
  have hlen := h.length
  rcases h.cases with ⟨hnone, heq⟩ | ⟨hmem, heq⟩
  · refine ⟨0, string_size - line.length - 1, .inl rfl, fun hmem => absurd hmem hnone, ?_⟩
    rw [buffer, ← heq, ← List.replicate_succ]
    congr 2
    omega
  · refine ⟨10, string_size - line.length, .inr rfl, fun _ => rfl, ?_⟩
    rw [buffer]
    nth_rewrite 1 [heq]
    rw [List.append_assoc]
    rfl

theorem buffer_injective {line' : List UInt8} (h : Stored line) (h' : Stored line')
    (heq : buffer line = buffer line') : line = line' := by
  have hcstr : ∀ {l : List UInt8}, Stored l → cstr (buffer l) = l := by
    intro l hl
    have hlen := hl.length
    have hz : cstr (List.replicate (string_size - l.length) 0) = [] := by
      obtain ⟨k, hk⟩ : ∃ k, string_size - l.length = k + 1 :=
        ⟨string_size - l.length - 1, by omega⟩
      rw [hk]
      rfl
    rw [buffer, cstr_append fun b hb h0 => hl.1 (h0 ▸ hb), hz, List.append_nil]
  rw [← hcstr h, heq, hcstr h']

/-- Words of a line's characters occur in its buffer where they occur in its text. -/
theorem infix_buffer_iff {p : List UInt8} (h : Stored line) (hp : p ≠ []) (h0 : 0 ∉ p)
    (h10 : 10 ∉ p) : p <:+: buffer line ↔ p <:+: lineText line := by
  obtain ⟨a, k, ha, -, heq⟩ := buffer_eq h
  have hap : a ∉ p := by
    rcases ha with rfl | rfl
    · exact h0
    · exact h10
  rw [heq, Lines.infix_append_cons_iff hap]
  refine or_iff_left fun hzeros => ?_
  obtain ⟨b, q, rfl⟩ := List.exists_cons_of_ne_nil hp
  have hb := List.eq_of_mem_replicate (hzeros.subset List.mem_cons_self)
  exact h0 (hb ▸ List.mem_cons_self)

end Buffers

end Search

open Search

variable {text pattern : List UInt8}

/-- The search of a pattern that is followed by its newline. -/
theorem checkString_newline (ht : Stored text) (hp : Stored pattern) (hnl : 10 ∈ pattern)
    (hne : lineText pattern ≠ []) :
    ∃ out, checkString (buffer text) (buffer pattern)
      = some ⟨out, decide (lineText pattern <:+: lineText text)⟩ := by
  obtain ⟨a, k, -, ha, heq⟩ := buffer_eq hp
  rw [ha hnl] at heq
  obtain ⟨out, hout⟩ : ∃ out, outer (buffer text) (buffer pattern) string_size 0
      = some ⟨out, decide (lineText pattern <:+: buffer text)⟩ :=
    outer_infix heq hne (not_mem_lineText pattern) (length_buffer ht) string_size 0 rfl
      (Nat.zero_add _)
  refine ⟨out, ?_⟩
  have h0 : 0 ∉ lineText pattern := fun h => hp.1 ((List.takeWhile_prefix _).subset h)
  rw [checkString, hout,
    decide_eq_decide.mpr (infix_buffer_iff ht hne h0 (not_mem_lineText pattern))]

/-- Otherwise nothing is found. -/
theorem checkString_bare (hp : Stored pattern) (hbare : ¬ (10 ∈ pattern ∧ lineText pattern ≠ []))
    {out : Search} (hout : checkString (buffer text) (buffer pattern) = some out) :
    out.found = false := by
  refine not_found_outer (fun j hj => ?_) _ _ hout
  obtain ⟨a, k, -, -, heq⟩ := buffer_eq hp
  have hmem : (10 : UInt8) ∈ (buffer pattern).drop 1 := by
    rw [Nat.add_comm, ← List.getElem?_drop] at hj
    exact List.mem_of_getElem? hj
  rcases hp.cases with ⟨hnone, -⟩ | ⟨hnl, hline⟩
  · have h := List.mem_of_mem_drop hmem
    rcases List.mem_append.mp h with h | h
    · exact hnone h
    · exact absurd (List.eq_of_mem_replicate h) (by decide)
  · have hnil : lineText pattern = [] := by
      by_contra hne
      exact hbare ⟨hnl, hne⟩
    rw [heq, hnil] at hmem
    exact absurd (List.eq_of_mem_replicate hmem) (by decide)

/-- The search reads its buffers only, and tells whether the pattern occurs in the text, exactly
where the pattern is not empty and has its newline behind it, or does not occur. -/
theorem check_string_iff (ht : Stored text) (hp : Stored pattern) :
    (∃ out, checkString (buffer text) (buffer pattern) = some out
        ∧ (out.found = true ↔ lineText pattern <:+: lineText text))
      ↔ (10 ∈ pattern ∧ lineText pattern ≠ []) ∨ ¬ lineText pattern <:+: lineText text := by
  by_cases hnl : 10 ∈ pattern ∧ lineText pattern ≠ []
  · obtain ⟨out, hout⟩ := checkString_newline ht hp hnl.1 hnl.2
    exact iff_of_true ⟨_, hout, decide_eq_true_iff⟩ (.inl hnl)
  · rw [or_iff_right hnl]
    constructor
    · rintro ⟨out, hout, hfound⟩ hinfix
      have htrue := hfound.mpr hinfix
      rw [checkString_bare hp hnl hout] at htrue
      cases htrue
    · intro hnot
      have hdiff : buffer text ≠ buffer pattern := by
        intro heq
        rw [buffer_injective ht hp heq] at hnot
        exact hnot List.infix_rfl
      obtain ⟨out, hout⟩ := outer_inside (length_buffer ht) (length_buffer hp) hdiff
        string_size 0 (Nat.zero_add _)
      refine ⟨out, hout, iff_of_false ?_ hnot⟩
      rw [checkString_bare hp hnl hout]
      exact Bool.false_ne_true

theorem check_string_ab : ∃ out,
    checkString (buffer (ascii "ab\n")) (buffer (ascii "b\n")) = some out
      ∧ (out.found = true ↔ lineText (ascii "b\n") <:+: lineText (ascii "ab\n")) :=
  (check_string_iff ⟨by decide, ascii "ab\n", by decide⟩ ⟨by decide, ascii "b\n", by decide⟩).mpr
    (.inl (by decide))

/-- The last line of the input, without a newline, is not found in a text that holds it. -/
theorem check_string_no_newline : ¬ ∀ text pattern, Stored text → Stored pattern →
    lineText pattern ≠ [] → ∃ out, checkString (buffer text) (buffer pattern) = some out
      ∧ (out.found = true ↔ lineText pattern <:+: lineText text) := by
  intro h
  have hp : Stored (ascii "b") := ⟨by decide, ascii "b", by decide⟩
  obtain ⟨out, hout, hfound⟩ := h (ascii "ab\n") (ascii "b") ⟨by decide, ascii "ab\n", by decide⟩
    hp (by decide)
  have htrue := hfound.mpr (by decide)
  rw [checkString_bare hp (by decide) hout] at htrue
  cases htrue

end EltexSystems
