import Mathlib.Data.List.Basic

/-!
# Lines of a stream

A stream cut behind each of its separators, the last piece left out when it is not ended.  Pieces
that each end in their only separator are the lines of a stream that begins with them and goes on
without a separator (`lines_flatten_append`), and the lines of any stream are such pieces
(`isLine_of_mem_lines`).  What holds no separator occurs in a stream where it occurs in one of the
pieces (`infix_append_cons_iff`).  Readings with limited room take a stream piece by piece
(`pieces_eq`).
-/

namespace Lines

variable {α : Type*} [DecidableEq α]

/-- The complete lines of a stream, `acc` being what has been read of the first. -/
def linesFrom (sep : α) : List α → List α → List (List α)
  | _, [] => []
  | acc, a :: l =>
    if a = sep then (acc ++ [a]) :: linesFrom sep [] l else linesFrom sep (acc ++ [a]) l

def lines (sep : α) (l : List α) : List (List α) := linesFrom sep [] l

/-- What the reading of one line takes of a stream, with room for some elements. -/
def fgets (sep : α) : ℕ → List α → List α
  | 0, _ => []
  | _, [] => []
  | n + 1, a :: l => if a = sep then [a] else a :: fgets sep n l

/-- What successive readings with room for `n` elements take of a stream, `acc` being what the first
has taken so far. -/
def piecesFrom (sep : α) (n : ℕ) : List α → List α → List (List α)
  | acc, [] => if acc = [] then [] else [acc]
  | acc, a :: l =>
    if a = sep ∨ acc.length + 1 = n then (acc ++ [a]) :: piecesFrom sep n [] l
    else piecesFrom sep n (acc ++ [a]) l

def pieces (sep : α) (n : ℕ) (l : List α) : List (List α) := piecesFrom sep n [] l

/-- A piece of a stream that ends in its only separator. -/
def IsLine (sep : α) (p : List α) : Prop := ∃ body, p = body ++ [sep] ∧ sep ∉ body

variable {sep : α}

/-- Elements other than the separator belong to the line being read. -/
theorem linesFrom_append : ∀ {body : List α}, sep ∉ body → ∀ (acc l : List α),
    linesFrom sep acc (body ++ l) = linesFrom sep (acc ++ body) l
  | [], _, acc, l => by rw [List.nil_append, List.append_nil]
  | a :: body, h, acc, l => by
    have ha : a ≠ sep := fun he => h (he ▸ List.mem_cons_self)
    have hbody : sep ∉ body := fun hm => h (List.mem_cons_of_mem _ hm)
    rw [List.cons_append, linesFrom, if_neg ha, linesFrom_append hbody, List.append_assoc]
    rfl

theorem lines_of_notMem {l : List α} (h : sep ∉ l) : lines sep l = [] := by
  have := linesFrom_append h [] []
  rwa [List.append_nil] at this

theorem lines_cons {p : List α} (h : IsLine sep p) (l : List α) :
    lines sep (p ++ l) = p :: lines sep l := by
  obtain ⟨body, rfl, hbody⟩ := h
  rw [lines, List.append_assoc, linesFrom_append hbody, List.nil_append, List.singleton_append,
    linesFrom, if_pos rfl, lines]

theorem lines_flatten_append : ∀ {ps : List (List α)}, (∀ p ∈ ps, IsLine sep p) →
    ∀ (l : List α), lines sep (ps.flatten ++ l) = ps ++ lines sep l
  | [], _, l => rfl
  | p :: ps, h, l => by
    rw [List.flatten_cons, List.append_assoc, lines_cons (h p List.mem_cons_self),
      lines_flatten_append fun q hq => h q (List.mem_cons_of_mem _ hq)]
    rfl

theorem isLine_of_mem_linesFrom : ∀ {l acc p : List α}, sep ∉ acc → p ∈ linesFrom sep acc l →
    IsLine sep p
  | [], acc, p, _, h => by simp [linesFrom] at h
  | a :: l, acc, p, hacc, h => by
    rw [linesFrom] at h
    split_ifs at h with ha
    · rcases List.mem_cons.mp h with rfl | h
      · exact ⟨acc, by rw [ha], hacc⟩
      · exact isLine_of_mem_linesFrom (by simp) h
    · refine isLine_of_mem_linesFrom (fun hm => ?_) h
      rcases List.mem_append.mp hm with hm | hm
      · exact hacc hm
      · exact ha (List.mem_singleton.mp hm).symm

theorem isLine_of_mem_lines {l p : List α} (h : p ∈ lines sep l) : IsLine sep p :=
  isLine_of_mem_linesFrom (by simp) h

/-- Pieces that begin a stream are its lines exactly when each is a line and no separator
follows. -/
theorem eq_lines_iff (ps : List (List α)) (l : List α) :
    ps = lines sep (ps.flatten ++ l) ↔ (∀ p ∈ ps, IsLine sep p) ∧ sep ∉ l := by
  constructor
  · intro h
    have hps : ∀ p ∈ ps, IsLine sep p := fun p hp => isLine_of_mem_lines (h ▸ hp)
    refine ⟨hps, fun hl => ?_⟩
    rw [lines_flatten_append hps] at h
    have hnil : lines sep l = [] := by simpa using h
    obtain ⟨l₁, l₂, rfl, hl₁⟩ := List.eq_append_cons_of_mem hl
    rw [lines, linesFrom_append hl₁, linesFrom, if_pos rfl] at hnil
    cases hnil
  · rintro ⟨hps, hl⟩
    rw [lines_flatten_append hps, lines_of_notMem hl, List.append_nil]

theorem fgets_spec : ∀ (n : ℕ) (l : List α), (fgets sep n l).length ≤ n
    ∧ (sep ∉ fgets sep n l ∨ IsLine sep (fgets sep n l))
  | 0, l => ⟨Nat.zero_le _, .inl (by simp [fgets])⟩
  | n + 1, [] => ⟨Nat.zero_le _, .inl (by simp [fgets])⟩
  | n + 1, a :: l => by
    rw [fgets]
    split_ifs with ha
    · rw [ha]
      exact ⟨by simp, .inr ⟨[], rfl, List.not_mem_nil⟩⟩
    · obtain ⟨hlen, hbody⟩ := fgets_spec n l
      refine ⟨Nat.succ_le_succ hlen, ?_⟩
      rcases hbody with hnone | ⟨body, heq, hnone⟩
      · exact .inl (List.not_mem_cons_of_ne_of_not_mem (Ne.symm ha) hnone)
      · exact .inr ⟨a :: body, by rw [heq]; rfl,
          List.not_mem_cons_of_ne_of_not_mem (Ne.symm ha) hnone⟩

/-- A line for which there is room is taken whole. -/
theorem fgets_line : ∀ {n : ℕ} {body : List α}, sep ∉ body → body.length < n → ∀ l : List α,
    fgets sep n (body ++ sep :: l) = body ++ [sep]
  | n + 1, [], _, _, l => if_pos rfl
  | n + 1, a :: body, h, hlen, l => by
    have ha : a ≠ sep := fun he => h (he ▸ List.mem_cons_self)
    have hbody : sep ∉ body := fun hm => h (List.mem_cons_of_mem _ hm)
    rw [List.cons_append, fgets, if_neg ha, fgets_line hbody (Nat.lt_of_succ_lt_succ hlen)]
    rfl

/-- So is what is left without a separator at the end. -/
theorem fgets_rest : ∀ {n : ℕ} {l : List α}, sep ∉ l → l.length ≤ n → fgets sep n l = l
  | 0, l, _, hlen => (List.eq_nil_of_length_eq_zero (Nat.le_zero.mp hlen)).symm
  | n + 1, [], _, _ => rfl
  | n + 1, a :: l, h, hlen => by
    have ha : a ≠ sep := fun he => h (he ▸ List.mem_cons_self)
    have hl : sep ∉ l := fun hm => h (List.mem_cons_of_mem _ hm)
    rw [fgets, if_neg ha, fgets_rest hl (Nat.le_of_succ_le_succ hlen)]

theorem piecesFrom_eq : ∀ {m n : ℕ} {acc l : List α}, acc.length + (m + 1) = n → l ≠ [] →
    piecesFrom sep n acc l = (acc ++ fgets sep (m + 1) l)
      :: pieces sep n (l.drop (fgets sep (m + 1) l).length)
  | m, n, acc, a :: l, hn, _ => by
    rw [piecesFrom, fgets]
    by_cases ha : a = sep
    · rw [if_pos (.inl ha), if_pos ha]
      rfl
    · rw [if_neg ha]
      rcases m with _ | m
      · rw [if_pos (.inr (by omega))]
        rfl
      · have hnot : ¬ (a = sep ∨ acc.length + 1 = n) := by
          rintro (h | h)
          · exact ha h
          · omega
        rw [if_neg hnot]
        rcases l with _ | ⟨b, l⟩
        · rw [piecesFrom, if_neg (by simp)]
          rfl
        · rw [piecesFrom_eq (m := m) (by rw [List.length_append, List.length_singleton]; omega)
            (List.cons_ne_nil b l), List.append_assoc]
          rfl

/-- The first piece is what a reading takes, and the others are those of the rest. -/
theorem pieces_eq {n : ℕ} (hn : 0 < n) {l : List α} (hl : l ≠ []) :
    pieces sep n l = fgets sep n l :: pieces sep n (l.drop (fgets sep n l).length) := by
  obtain ⟨m, rfl⟩ : ∃ m, n = m + 1 := ⟨n - 1, by omega⟩
  exact piecesFrom_eq (by simp) hl

theorem flatten_piecesFrom (n : ℕ) : ∀ (acc l : List α),
    (piecesFrom sep n acc l).flatten = acc ++ l
  | acc, [] => by
    rw [piecesFrom]
    split_ifs with h
    · rw [h]
      rfl
    · simp
  | acc, a :: l => by
    rw [piecesFrom]
    split_ifs
    · rw [List.flatten_cons, flatten_piecesFrom n [] l, List.append_assoc]
      rfl
    · rw [flatten_piecesFrom n (acc ++ [a]) l, List.append_assoc]
      rfl

/-- Nothing of a stream is lost. -/
theorem flatten_pieces (n : ℕ) (l : List α) : (pieces sep n l).flatten = l :=
  flatten_piecesFrom n [] l

theorem fgets_ne_nil {n : ℕ} (hn : 0 < n) {l : List α} (hl : l ≠ []) : fgets sep n l ≠ [] := by
  rcases n with _ | n
  · omega
  · rcases l with _ | ⟨a, l⟩
    · exact absurd rfl hl
    · rw [fgets]
      split_ifs <;> exact List.cons_ne_nil _ _

theorem fgets_prefix : ∀ (n : ℕ) (l : List α), fgets sep n l <+: l
  | 0, l => List.nil_prefix
  | n + 1, [] => List.nil_prefix
  | n + 1, a :: l => by
    rw [fgets]
    split_ifs
    · exact ⟨l, rfl⟩
    · exact (List.cons_prefix_cons).mpr ⟨rfl, fgets_prefix n l⟩

omit [DecidableEq α]

theorem prefix_append_cons_iff : ∀ {p l₁ l₂ : List α}, sep ∉ p →
    (p <+: l₁ ++ sep :: l₂ ↔ p <+: l₁)
  | [], l₁, l₂, _ => iff_of_true List.nil_prefix List.nil_prefix
  | a :: p, [], l₂, h => by
    have ha : a ≠ sep := fun he => h (he ▸ List.mem_cons_self)
    rw [List.nil_append, List.cons_prefix_cons, List.prefix_nil]
    exact iff_of_false (fun hp => ha hp.1) (List.cons_ne_nil a p)
  | a :: p, b :: l₁, l₂, h => by
    rw [List.cons_append, List.cons_prefix_cons, List.cons_prefix_cons,
      prefix_append_cons_iff fun hm => h (List.mem_cons_of_mem _ hm)]

/-- A word without the separator lies on one side of it. -/
theorem infix_append_cons_iff {p l₁ l₂ : List α} (h : sep ∉ p) :
    p <:+: l₁ ++ sep :: l₂ ↔ p <:+: l₁ ∨ p <:+: l₂ := by
  induction l₁ with
  | nil =>
    have hnil : p <+: [] ++ sep :: l₂ ↔ p <+: [] := prefix_append_cons_iff h
    rw [List.nil_append] at hnil ⊢
    rw [List.infix_cons_iff, hnil, List.prefix_nil, List.infix_nil]
  | cons b l₁ ih =>
    have hcons : p <+: b :: l₁ ++ sep :: l₂ ↔ p <+: b :: l₁ := prefix_append_cons_iff h
    rw [List.cons_append] at hcons ⊢
    rw [List.infix_cons_iff, hcons, ih, List.infix_cons_iff, or_assoc]

end Lines
