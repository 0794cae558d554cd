import EltexSystems.Menu
import EltexSystems.Proofs.RawBook

/-!
# What the menu does with malformed input

Where no pass writes past the end of an array there is but one run (`run_eq`), and behind one that
does anything may follow (`run_behind`).  A pass adds a record, removes one or leaves the book, and
which of these it does decides what a malformed token does to the book (`menu_removes_iff`).  A pass
takes something of the input unless it is stuck (`length_pass_lt`), and a stuck pass is followed by
another one (`stuck_pass`), so the loop ends exactly when it never makes one (`menu_ends_iff`).
-/

namespace EltexSystems

open CStr

namespace Menu

variable {s : Menu} {n : ℕ}

theorem after_succ (s : Menu) (n : ℕ) : s.after (n + 1) = (s.after n).pass :=
  Function.iterate_succ_apply' pass n s

theorem Makes.of_le {t : ℕ → Menu} {m : ℕ} (h : Makes t n) (hle : m ≤ n) : Makes t m :=
  fun i hi => h i (hi.trans_le hle)

section Runs

variable {t : ℕ → Menu}

theorem run_after (s : Menu) : s.Run s.after := ⟨rfl, fun n => .inr (after_succ s n)⟩

/-- Without a write past an array the passes are those of the source. -/
theorem run_eq (hs : ∀ n, Makes s.after (n + 1) → ¬ (s.after n).Overruns) (h : s.Run t) :
    ∀ {n : ℕ}, Makes t n → t n = s.after n := by
  intro n
  induction n using Nat.strongRecOn with
  | _ n ih =>
    intro hmakes
    rcases n with _ | n
    · exact h.first
    · have hafter : Makes s.after (n + 1) := fun i hi => by
        rw [← ih i hi (hmakes.of_le hi.le)]
        exact hmakes i hi
      have hn := ih n (Nat.lt_succ_self n) (hmakes.of_le (Nat.le_succ n))
      rcases h.next n with hover | hpass
      · exact absurd (hn ▸ hover) (hs n hafter)
      · rw [hpass, hn, after_succ]

/-- Behind a write past an array any state may follow, and what comes of it. -/
theorem run_behind (hover : (s.after n).Overruns) (u : Menu) :
    ∃ t, s.Run t ∧ (∀ i ≤ n, t i = s.after i) ∧ ∀ j, t (n + 1 + j) = u.after j := by
  have hlow : ∀ i ≤ n, (if i ≤ n then s.after i else u.after (i - (n + 1))) = s.after i :=
    fun i hi => if_pos hi
  have hhigh : ∀ i, n < i →
      (if i ≤ n then s.after i else u.after (i - (n + 1))) = u.after (i - (n + 1)) :=
    fun i hi => if_neg (Nat.not_le_of_lt hi)
  refine ⟨fun i => if i ≤ n then s.after i else u.after (i - (n + 1)),
    ⟨hlow 0 (Nat.zero_le n), fun i => ?_⟩, hlow, fun j => ?_⟩
  · rcases lt_trichotomy i n with hlt | rfl | hgt
    · right
      rw [hlow i hlt.le, hlow (i + 1) hlt, after_succ]
    · left
      rwa [hlow i le_rfl]
    · right
      rw [hhigh i hgt, hhigh (i + 1) (by omega), ← after_succ]
      congr 1
      omega
  · refine (hhigh (n + 1 + j) (by omega)).trans ?_
    congr 1
    omega

/-- A run behind a write past an array makes the passes up to it and those of the state it left. -/
theorem makes_behind {u : Menu} {k : ℕ} (hmakes : Makes s.after (n + 1))
    (hlow : ∀ i ≤ n, t i = s.after i) (hhigh : ∀ j, t (n + 1 + j) = u.after j)
    (hu : Makes u.after k) : Makes t (n + 1 + k) := by
  intro i hi
  rcases Nat.lt_or_ge n i with hlt | hle
  · obtain ⟨j, rfl⟩ := Nat.exists_eq_add_of_le (Nat.succ_le_of_lt hlt)
    rw [Nat.succ_eq_add_one, hhigh]
    exact hu j (by omega)
  · rw [hlow i hle]
    exact hmakes i (by omega)

end Runs

section Book

theorem book_pass (s : Menu) : s.pass.book = (handleChoice s.chosen s.book (scanInt s.input).2).1 :=
  rfl

theorem book_pass_add (h : s.chosen = 1) (hroom : s.book.abonent_count < MAX_ABONENTS) :
    ∃ r, s.pass.book.entries = s.book.entries ++ [r] := by
  rw [book_pass, handleChoice, if_pos h, addAbonent, if_neg (Nat.not_le_of_lt hroom)]
  exact RawBook.entries_add hroom _ _ _

theorem book_pass_full (h : s.chosen = 1) (hfull : s.book.abonent_count ≥ MAX_ABONENTS) :
    s.pass.book = s.book := by
  rw [book_pass, handleChoice, if_pos h, addAbonent, if_pos hfull]

theorem book_pass_remove (h : s.chosen = 2) :
    s.pass.book = s.book.removeAbonent ((s.answer.map intOf).getD 0) := by
  rw [book_pass, handleChoice, if_neg (by omega), if_pos h]
  rfl

theorem book_pass_other (h1 : s.chosen ≠ 1) (h2 : s.chosen ≠ 2) : s.pass.book = s.book := by
  rw [book_pass, handleChoice, if_neg h1, if_neg h2]
  split_ifs
  · rfl
  · rfl

/-- Without room, a number of a record or another choice that changes it, a pass keeps the book. -/
theorem book_pass_eq (hadd : s.chosen = 1 → s.book.abonent_count ≥ MAX_ABONENTS)
    (hremove : s.chosen = 2 → ¬ (0 ≤ (s.answer.map intOf).getD 0 ∧
      (s.answer.map intOf).getD 0 < s.book.abonent_count)) : s.pass.book = s.book := by
  by_cases h1 : s.chosen = 1
  · exact book_pass_full h1 (hadd h1)
  · by_cases h2 : s.chosen = 2
    · rw [book_pass_remove h2, RawBook.removeAbonent_none (hremove h2)]
    · exact book_pass_other h1 h2

/-- A pass with the number of a record removes it. -/
theorem count_pass_remove (h : s.chosen = 2) {i : ℕ} (hi : (s.answer.map intOf).getD 0 = i)
    (hlt : i < s.book.abonent_count) : s.pass.book.abonent_count < s.book.abonent_count := by
  rw [book_pass_remove h, hi, RawBook.count_removeAbonent hlt]
  omega

/-- Only a removal makes the book smaller. -/
theorem removes_of_lt (h : s.pass.book.abonent_count < s.book.abonent_count) : s.chosen = 2 ∧
    ∃ i : ℕ, (s.answer.map intOf).getD 0 = i ∧ i < s.book.abonent_count := by
  have hchange : s.pass.book ≠ s.book := fun heq => by rw [heq] at h; exact lt_irrefl _ h
  have h2 : s.chosen = 2 := by
    by_contra h2
    by_cases h1 : s.chosen = 1
    · by_cases hroom : s.book.abonent_count < MAX_ABONENTS
      · obtain ⟨r, hr⟩ := book_pass_add h1 hroom
        have hlen := congrArg List.length hr
        rw [RawBook.length_entries, List.length_append, RawBook.length_entries] at hlen
        omega
      · exact hchange (book_pass_full h1 (Nat.le_of_not_lt hroom))
    · exact hchange (book_pass_other h1 h2)
  refine ⟨h2, ((s.answer.map intOf).getD 0).toNat, ?_⟩
  by_contra hrange
  refine hchange ?_
  rw [book_pass_remove h2, RawBook.removeAbonent_none (by omega)]

theorem intOf_index {k : ℕ} (h : k < s.book.abonent_count) : intOf k = k := by
  have hmax : s.book.abonent_count ≤ 100 := s.book.fits
  exact intOf_of_lt (by omega) (by omega)

theorem AsTyped.congr {t u : ℕ → Menu} (h : AsTyped u) (heq : ∀ n, Makes t n → t n = u n) :
    AsTyped t := by
  have hmakes : ∀ {n}, Makes t n → Makes u n := fun hm i hi =>
    heq i (hm.of_le hi.le) ▸ hm i hi
  refine ⟨fun n hm hlt => ?_, fun m n hle hm hbad hnone => ?_⟩
  · have hn := heq n (hm.of_le (Nat.le_succ n))
    have hsucc := heq (n + 1) hm
    rw [hn, hsucc] at hlt ⊢
    exact h.typed n (hmakes hm) hlt
  · rw [heq n hm, heq m (hm.of_le hle)]
    refine h.malformed m n hle (hmakes hm) (heq m (hm.of_le hle) ▸ hbad) fun i hmi hin => ?_
    rw [← heq i (hm.of_le hin.le)]
    exact hnone i hmi hin

/-- A book of one record, from which a token that is no number removes it. -/
def lettered : Menu := ⟨⟨fun _ => 0, 1, by decide⟩, 0, ascii "2 x"⟩

/-- Behind a write past an array a record may be removed under no number. -/
theorem not_removesAsTyped (hmakes : Makes s.after (n + 1)) (hover : (s.after n).Overruns) :
    ¬ s.RemovesAsTyped := by
  intro h
  obtain ⟨t, hrun, hlow, hhigh⟩ := run_behind hover lettered
  have hnow : t (n + 1) = lettered := hhigh 0
  have hnext : t (n + 1 + 1) = lettered.after 1 := hhigh 1
  have hmade : Makes t (n + 1 + 1) := makes_behind hmakes hlow hhigh fun i hi => by
    obtain rfl : i = 0 := by omega
    decide
  obtain ⟨-, k, hk, -⟩ := (h t hrun).typed (n + 1) hmade (by rw [hnow, hnext]; decide)
  rw [hnow, show lettered.answer = none by decide] at hk
  cases hk

/-- Where records are removed as typed, a removal is answered with an integer. -/
theorem AsTyped.answered (h : AsTyped s.after) (hrun : Makes s.after (n + 1))
    (h2 : (s.after n).chosen = 2) (hcount : (s.after n).book.abonent_count ≠ 0) :
    ∃ v, (s.after n).answer = some v ∧
      (0 ≤ intOf v → intOf v < (s.after n).book.abonent_count → intOf v = v) := by
  rcases hans : (s.after n).answer with _ | v
  · have hzero : ((s.after n).answer.map intOf).getD 0 = (0 : ℕ) := by rw [hans]; rfl
    have hlt := count_pass_remove h2 hzero (Nat.pos_of_ne_zero hcount)
    rw [← after_succ] at hlt
    obtain ⟨-, k, hk, -⟩ := h.typed n hrun hlt
    rw [hans] at hk
    cases hk
  · refine ⟨v, rfl, fun h0 hv => ?_⟩
    obtain ⟨i, hi⟩ := Int.eq_ofNat_of_zero_le h0
    have hval : ((s.after n).answer.map intOf).getD 0 = (i : ℕ) := by rw [hans]; exact hi
    have hlt := count_pass_remove h2 hval (by omega)
    rw [← after_succ] at hlt
    obtain ⟨-, k, hk, hkc, -⟩ := h.typed n hrun hlt
    rw [hans] at hk
    obtain rfl := Option.some.inj hk
    exact intOf_index hkc

/-- And behind a malformed token a record would be added, but there is no room. -/
theorem AsTyped.full {m : ℕ} (h : AsTyped s.after) (hle : m ≤ n) (hrun : Makes s.after (n + 1))
    (hbad : (s.after m).Malformed) (hnone : ∀ i, m ≤ i → i ≤ n → ¬ (s.after i).RemovalTyped)
    (h1 : (s.after n).chosen = 1) : (s.after n).book.abonent_count ≥ MAX_ABONENTS := by
  by_contra hroom
  obtain ⟨r, hr⟩ := book_pass_add h1 (Nat.lt_of_not_le hroom)
  have hnow := h.malformed m n hle (hrun.of_le (Nat.le_succ n)) hbad
    fun i hmi hin => hnone i hmi hin.le
  have hnext := h.malformed m (n + 1) (Nat.le_succ_of_le hle) hrun hbad
    fun i hmi hin => hnone i hmi (Nat.le_of_lt_succ hin)
  rw [after_succ, hr, hnow] at hnext
  exact absurd (congrArg List.length hnext) (by simp)

/-- The passes of the source do what is typed. -/
theorem WellTyped.asTyped (h : s.WellTyped) : AsTyped s.after := by
  refine ⟨fun n hrun hlt => ?_, fun m n hle => ?_⟩
  · rw [after_succ] at hlt ⊢
    obtain ⟨h2, i, hi, hic⟩ := removes_of_lt hlt
    obtain ⟨v, hv, hint⟩ := h.removal n hrun h2 (by omega)
    have hval : intOf v = i := by rw [hv] at hi; exact hi
    obtain rfl : v = i := (hint (by omega) (by omega)).symm.trans hval
    refine ⟨h2, i, hv, hic, ?_⟩
    rw [book_pass_remove h2, hi, RawBook.entries_remove _ hic]
  · -- Behind the malformed token no pass changes the book.
    induction n, hle using Nat.le_induction with
    | base => exact fun _ _ _ => rfl
    | succ n hle ih =>
      intro hrun hbad hnone
      rw [← ih (hrun.of_le (Nat.le_succ n)) hbad fun i hmi hin => hnone i hmi (by omega),
        after_succ, book_pass_eq]
      · exact h.adding m n hle hrun hbad fun i hmi hin => hnone i hmi (by omega)
      · rintro h2 ⟨h0, hlt⟩
        obtain ⟨v, hv, hint⟩ := h.removal n hrun h2 (by omega)
        rw [hv, Option.map_some, Option.getD_some] at h0 hlt
        have hvint := hint h0 hlt
        refine hnone n hle (Nat.lt_succ_self n) ⟨h2, v.toNat, ?_, by omega⟩
        rw [hv, Int.toNat_of_nonneg (by omega)]

/-- Records are removed as typed, and none is added or removed behind a malformed token, exactly
when what is typed says so and runs past no array. -/
theorem menu_removes_iff (s : Menu) : s.RemovesAsTyped ↔ s.WellTyped := by
  constructor
  · intro hall
    have h := hall s.after (run_after s)
    exact ⟨fun n hmakes hover => not_removesAsTyped hmakes hover hall,
      fun n hrun h2 hcount => h.answered hrun h2 hcount,
      fun m n hle hrun hbad hnone h1 => h.full hle hrun hbad hnone h1⟩
  · intro h t hrun
    exact h.asTyped.congr fun n => run_eq h.inside hrun

/-- A record is typed, then the choice 2 and a token that is no number: the record is removed. -/
theorem malformed_removes :
    ¬ (Menu.mk .start 0 (ascii "1 ann lee 7 2 x")).RemovesAsTyped := by
  intro h
  have hlt : ((Menu.mk .start 0 (ascii "1 ann lee 7 2 x")).after 2).book.abonent_count
      < ((Menu.mk .start 0 (ascii "1 ann lee 7 2 x")).after 1).book.abonent_count := by decide
  have hrun : Makes (Menu.mk .start 0 (ascii "1 ann lee 7 2 x")).after 2 := by
    intro i hi
    interval_cases i <;> decide
  obtain ⟨-, k, hk, -⟩ := (h _ (run_after _)).typed 1 hrun hlt
  rw [show ((Menu.mk .start 0 (ascii "1 ann lee 7 2 x")).after 1).answer = none by decide] at hk
  cases hk

end Book

section Termination

theorem stuck_cases (h : s.Stuck) : s.chosen = s.choice ∧ (skipSpace s.input = [] ∧
    (scanInt s.input).2 = [] ∨ ∃ b rest, skipSpace s.input = b :: rest ∧
      isdigit b = false ∧ issign b = false ∧ (scanInt s.input).2 = b :: rest ∧ s.choice ≠ 3 ∧
      (s.choice = 1 → s.book.abonent_count ≥ MAX_ABONENTS)) := by
  unfold Stuck at h
  split at h
  · rename_i hnil
    rw [chosen, scanInt_nil hnil]
    exact ⟨rfl, .inl ⟨hnil, rfl⟩⟩
  · rename_i b rest hcons
    obtain ⟨hdigit, hsign, h3, h1⟩ := h
    rw [chosen, scanInt_left hcons hdigit hsign]
    exact ⟨rfl, .inr ⟨b, rest, hcons, hdigit, hsign, rfl, h3, h1⟩⟩

/-- A stuck pass is followed by a stuck one, with the same choice. -/
theorem stuck_pass (h : s.Stuck) : s.pass.Stuck ∧ s.pass.choice = s.choice := by
  obtain ⟨hchosen, ⟨hnil, hrest⟩ | ⟨b, rest, hcons, hdigit, hsign, hrest, h3, h1⟩⟩ := stuck_cases h
  · refine ⟨?_, hchosen⟩
    have hinput : s.pass.input = [] := by
      change (handleChoice s.chosen s.book (scanInt s.input).2).2 = []
      rw [hrest]
      unfold handleChoice addAbonent removeAbonent searchAbonent
      split_ifs <;> rfl
    rw [Stuck, hinput]
    trivial
  · refine ⟨?_, hchosen⟩
    have hleft := scanInt_left (skipSpace_idem hcons) hdigit hsign
    have hinput : s.pass.input = b :: rest := by
      change (handleChoice s.chosen s.book (scanInt s.input).2).2 = b :: rest
      rw [hrest, hchosen, handleChoice]
      split_ifs with hc1 hc2
      · rw [addAbonent, if_pos (h1 hc1)]
      · rw [removeAbonent, hleft]
      · rfl
    rw [Stuck, hinput, skipSpace_idem hcons]
    refine ⟨hdigit, hsign, ?_, fun hc => ?_⟩
    · rwa [show s.pass.choice = s.choice from hchosen]
    · have hc : s.chosen = 1 := hc
      rw [book_pass_full hc (h1 (hchosen.symm.trans hc))]
      exact h1 (hchosen.symm.trans hc)

theorem length_handleChoice_le (c : ℤ) (b : RawBook) (input : List UInt8) :
    (handleChoice c b input).2.length ≤ input.length := by
  unfold handleChoice
  split_ifs
  · unfold addAbonent
    split_ifs
    · exact le_rfl
    · exact (length_scanStr_le _).trans ((length_scanStr_le _).trans (length_scanStr_le _))
  · exact length_scanInt_le _
  · exact length_scanStr_le _
  · exact le_rfl

/-- A pass that is not stuck takes something of the input. -/
theorem length_pass_lt (h : ¬ s.Stuck) : s.pass.input.length < s.input.length := by
  have hle := length_handleChoice_le s.chosen s.book (scanInt s.input).2
  rcases hskip : skipSpace s.input with _ | ⟨b, rest⟩
  · rw [Stuck, hskip] at h
    exact absurd trivial h
  · by_cases hb : isdigit b = true ∨ issign b = true
    · exact hle.trans_lt (length_scanInt_lt hskip hb)
    · rw [not_or, Bool.not_eq_true, Bool.not_eq_true] at hb
      have hleft := scanInt_left hskip hb.1 hb.2
      have hchosen : s.chosen = s.choice := by rw [chosen, hleft]; rfl
      have hlen : (b :: rest).length ≤ s.input.length := by
        rw [← hskip]
        exact List.length_dropWhile_le _ _
      have hread := length_scanStr_lt (skipSpace_idem hskip)
      rw [Stuck, hskip] at h
      change (handleChoice s.chosen s.book (scanInt s.input).2).2.length < s.input.length
      rw [hleft, hchosen, handleChoice]
      split_ifs with hc1 hc2 hc3
      · rw [addAbonent, if_neg fun hfull => h ⟨hb.1, hb.2, by omega, fun _ => hfull⟩]
        have h2 := length_scanStr_le (scanStr (b :: rest)).2
        have h3 := length_scanStr_le (scanStr (scanStr (b :: rest)).2).2
        exact (h3.trans h2).trans_lt (hread.trans_le hlen)
      · exact absurd ⟨hb.1, hb.2, by omega, fun hc => absurd hc hc1⟩ h
      · exact hread.trans_le hlen
      · exact absurd ⟨hb.1, hb.2, hc3, fun hc => absurd hc hc1⟩ h

theorem stuck_after (h : s.Stuck) (i : ℕ) : (s.after i).Stuck ∧ (s.after i).choice = s.choice := by
  induction i with
  | zero => exact ⟨h, rfl⟩
  | succ i ih =>
    rw [after_succ]
    exact ⟨(stuck_pass ih.1).1, (stuck_pass ih.1).2.trans ih.2⟩

theorem after_add (s : Menu) (m n : ℕ) : s.after (m + n) = (s.after m).after n := by
  rw [after, Nat.add_comm, Function.iterate_add_apply]
  rfl

/-- The loop ends in every run exactly when no pass it makes is stuck or writes past an array. -/
theorem menu_ends_iff (s : Menu) : s.Ends ↔
    ∀ n, Makes s.after (n + 1) → ¬ (s.after n).Stuck ∧ ¬ (s.after n).Overruns := by
  constructor
  · intro hends n hrun
    refine ⟨fun hstuck => ?_, fun hover => ?_⟩
    · obtain ⟨m, hm⟩ := hends s.after (run_after s)
      rcases Nat.lt_or_ge m (n + 1) with hlt | hge
      · exact hrun m hlt hm
      · obtain ⟨k, rfl⟩ := Nat.exists_eq_add_of_le (Nat.le_of_succ_le hge)
        rw [after_add, (stuck_after hstuck k).2] at hm
        exact hrun n (Nat.lt_succ_self n) hm
    · -- the state may be one in which nothing is left of the input
      obtain ⟨t, htrun, hlow, hhigh⟩ := run_behind hover ⟨.start, 0, []⟩
      have hempty : ∀ k, Makes (Menu.mk .start 0 []).after k := fun k i _ hi => by
        rw [(stuck_after (s := ⟨.start, 0, []⟩) trivial i).2] at hi
        cases hi
      obtain ⟨m, hm⟩ := hends t htrun
      exact makes_behind hrun hlow hhigh (hempty (m + 1)) m (by omega) hm
  · intro h t htrun
    by_contra hends
    have hrun : ∀ n, Makes t n := fun n i _ hi => hends ⟨i, hi⟩
    have heq : ∀ n, t n = s.after n := fun n =>
      run_eq (fun n hn => (h n hn).2) htrun (hrun n)
    have hafter : ∀ n, Makes s.after n := fun n i hi => heq i ▸ hrun n i hi
    have hlen : ∀ n, (s.after n).input.length + n ≤ s.input.length := by
      intro n
      induction n with
      | zero => exact le_rfl
      | succ n ih =>
        have hlt := length_pass_lt (h n (hafter (n + 1))).1
        rw [← after_succ] at hlt
        omega
    have := hlen (s.input.length + 1)
    omega

/-- A letter typed at the first menu is never taken. -/
theorem letter_never_ends : ¬ (Menu.mk .start 0 (ascii "x\n")).Ends := by
  intro hends
  obtain ⟨m, hm⟩ := hends _ (run_after _)
  have hstuck : (Menu.mk .start 0 (ascii "x\n")).Stuck :=
    ⟨by decide, by decide, by decide, by decide⟩
  rw [(stuck_after hstuck m).2] at hm
  cases hm

end Termination

end Menu

end EltexSystems
