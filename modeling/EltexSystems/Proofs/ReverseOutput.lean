import EltexSystems.ReverseOutput

/-!
# What is printed while it is swapped

After `i` rounds the first `i` places and the last `i` hold what the reversed array has there
(`Turned`), so that in the second half, where nothing is swapped, the place to print holds its final
element (`body_turned`).
-/

namespace EltexSystems

namespace Reversal

variable {xs : List ℤ} {s : Reversal} {i : ℕ}

/-- The state after some rounds. -/
structure Turned (xs : List ℤ) (i : ℕ) (s : Reversal) : Prop where
  length : s.array.length = xs.length
  ends : ∀ j, j < i ∨ xs.length ≤ i + j → s.array[j]? = xs.reverse[j]?
  middle : ∀ j, i ≤ j → i + j < xs.length → s.array[j]? = xs[j]?
  printed : s.printed = xs.reverse.take i

theorem turned_start (xs : List ℤ) : Turned xs 0 ⟨xs, []⟩ where
  length := rfl
  ends j hj := by
    have hlen : xs.length ≤ j := by omega
    rw [List.getElem?_eq_none hlen, List.getElem?_eq_none (by rwa [List.length_reverse])]
  middle _ _ _ := rfl
  printed := rfl

/-- The element the swap takes from the far end. -/
theorem reverse_front (hi : i < xs.length) : xs.reverse[i]? = xs[xs.length - i - 1]? := by
  rw [List.getElem?_reverse hi]
  congr 1
  omega

theorem reverse_back (hi : i < xs.length) : xs.reverse[xs.length - i - 1]? = xs[i]? := by
  rw [List.getElem?_reverse (by omega)]
  congr 1
  omega

/-- In the first half the swap puts two more places right. -/
theorem swap_turned (h : Turned xs i s) (hlt : i < xs.length - i - 1) :
    ∃ buf array, s.array[xs.length - i - 1]? = some buf
      ∧ swap xs.length i buf s.array = some array
      ∧ Turned xs (i + 1) ⟨array, xs.reverse.take (i + 1)⟩ := by
  have hback := h.middle (xs.length - i - 1) (by omega) (by omega)
  have hfront := h.middle i le_rfl (by omega)
  obtain ⟨buf, hbuf⟩ : ∃ buf, xs[xs.length - i - 1]? = some buf :=
    ⟨_, List.getElem?_eq_getElem (by omega)⟩
  obtain ⟨x, hx⟩ : ∃ x, xs[i]? = some x := ⟨_, List.getElem?_eq_getElem (by omega)⟩
  refine ⟨buf, (s.array.set (xs.length - i - 1) x).set i buf, hback.trans hbuf, ?_, ?_⟩
  · rw [swap, if_pos hlt, hfront, hx]
    rfl
  have hget : ∀ j, ((s.array.set (xs.length - i - 1) x).set i buf)[j]?
      = if i = j then some buf else if xs.length - i - 1 = j then some x else s.array[j]? := by
    intro j
    have hlen := h.length
    rw [List.getElem?_set, List.getElem?_set, List.length_set]
    split_ifs <;> first | rfl | omega
  refine ⟨by rw [List.length_set, List.length_set, h.length], fun j hj => ?_, fun j hij hj => ?_,
    rfl⟩
  · rw [hget j]
    split_ifs with h1 h2
    · rw [← h1, reverse_front (by omega), hbuf]
    · rw [← h2, reverse_back (by omega), hx]
    · exact h.ends j (by omega)
  · rw [hget j, if_neg (by omega), if_neg (by omega)]
    exact h.middle j (by omega) (by omega)

/-- In the second half every place from the middle on is right already. -/
theorem turned_of_half (h : Turned xs i s) (hi : i < xs.length) (hle : xs.length - i - 1 ≤ i) :
    Turned xs (i + 1) ⟨s.array, xs.reverse.take (i + 1)⟩ := by
  refine ⟨h.length, fun j hj => ?_, fun j hij hj => by omega, rfl⟩
  by_cases hends : j < i ∨ xs.length ≤ i + j
  · exact h.ends j hends
  · have hj' : j = xs.length - i - 1 := by omega
    -- only the middle element of an odd number is left
    have hmid : i = xs.length - i - 1 := by omega
    rw [h.middle j (by omega) (by omega), hj', reverse_back hi, ← hmid]

theorem body_turned (h : Turned xs i s) (hi : i < xs.length) :
    ∃ s', body xs.length s i = some s' ∧ Turned xs (i + 1) s' := by
  obtain ⟨buf, array, hbuf, hswap, hturned⟩ : ∃ buf array,
      s.array[xs.length - i - 1]? = some buf ∧ swap xs.length i buf s.array = some array
        ∧ Turned xs (i + 1) ⟨array, xs.reverse.take (i + 1)⟩ := by
    by_cases hlt : i < xs.length - i - 1
    · exact swap_turned h hlt
    · have hlen := h.length
      exact ⟨_, s.array, List.getElem?_eq_getElem (by omega), if_neg hlt,
        turned_of_half h hi (Nat.le_of_not_lt hlt)⟩
  have hx : array[i]? = xs.reverse[i]? := hturned.ends i (.inl (Nat.lt_succ_self i))
  obtain ⟨x, hget⟩ : ∃ x, xs.reverse[i]? = some x :=
    ⟨_, List.getElem?_eq_getElem (by rwa [List.length_reverse])⟩
  refine ⟨⟨array, xs.reverse.take (i + 1)⟩, ?_, hturned⟩
  rw [body, hbuf, Option.bind_some, hswap, Option.bind_some, hx, hget, Option.map_some, h.printed,
    List.take_add_one, hget, Option.toList_some]

/-- The rounds from the first on. -/
theorem rounds_turned (xs : List ℤ) : ∀ i ≤ xs.length,
    ∃ s, (List.range i).foldlM (body xs.length) ⟨xs, []⟩ = some s ∧ Turned xs i s
  | 0, _ => ⟨_, rfl, turned_start xs⟩
  | i + 1, hi => by
    obtain ⟨s, hs, h⟩ := rounds_turned xs i (by omega)
    obtain ⟨s', hbody, h'⟩ := body_turned h (by omega)
    refine ⟨s', ?_, h'⟩
    rw [List.range_succ, List.foldlM_append, hs]
    simp only [Option.bind_eq_bind, Option.bind_some, List.foldlM_cons, hbody, List.foldlM_nil]
    rfl

theorem loop_reverse (xs : List ℤ) : loop xs = some ⟨xs.reverse, xs.reverse⟩ := by
  obtain ⟨⟨array, printed⟩, hs, h⟩ := rounds_turned xs xs.length le_rfl
  have harray : array = xs.reverse := List.ext_getElem? fun j => h.ends j (by omega)
  have hprinted : printed = xs.reverse :=
    h.printed.trans (List.take_of_length_le (by rw [List.length_reverse]))
  rw [loop, hs, harray, hprinted]

end Reversal

/-- The numbers typed are printed in reverse, and so they lie in the array. -/
theorem reverse_output_reverses {N : ℤ} (input : ℕ → ℤ) (hN : 1 ≤ N) :
    reverseOutput N input
      = some (.done (Reversal.typed N input).reverse
        (Reversal.text (Reversal.typed N input).reverse)) := by
  rw [reverseOutput, if_neg (by omega), Reversal.loop_reverse]
  rfl

theorem reverse_output_three :
    reverseOutput 3 (fun k => 10 * k + 5) = some (.done [25, 15, 5] (CStr.ascii "25 15 5 \n")) :=
  (reverse_output_reverses _ (by decide)).trans (by decide)

end EltexSystems
