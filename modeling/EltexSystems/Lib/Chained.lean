import Mathlib.Data.List.Nodup
import Mathlib.Data.List.Pairwise

/-!
# Separate chaining

A table of chains in which every element lies in the chain its key selects and no chain holds a key
twice (`Inv`).  Then an element is in the table exactly when it is in its own chain
(`Inv.mem_flatten_iff`) and no key occurs twice in the whole table (`Inv.nodup_flatten`); replacing
one chain by another that respects both keeps the invariant (`Inv.set`).
-/

namespace Chained

variable {α κ : Type*} {key : α → κ} {slot : κ → ℕ} {bs : List (List α)}

/-- Every element lies where its key selects, no key twice in a chain. -/
structure Inv (key : α → κ) (slot : κ → ℕ) (bs : List (List α)) : Prop where
  placed : ∀ i, ∀ a ∈ bs.getD i [], slot (key a) = i
  nodup : ∀ i, ((bs.getD i []).map key).Nodup

theorem getD_set (bs : List (List α)) (i : ℕ) (l : List α) (j : ℕ) :
    (bs.set i l).getD j [] = if i = j ∧ i < bs.length then l else bs.getD j [] := by
  simp only [List.getD_eq_getElem?_getD, List.getElem?_set]
  by_cases hij : i = j
  · subst hij
    by_cases hi : i < bs.length
    · simp [hi]
    · simp [hi]
  · simp [hij]

theorem getD_replicate_nil (n i : ℕ) : (List.replicate n ([] : List α)).getD i [] = [] := by
  simp only [List.getD_eq_getElem?_getD, List.getElem?_replicate]
  split <;> rfl

theorem inv_replicate (n : ℕ) : Inv key slot (List.replicate n ([] : List α)) where
  placed := fun i a ha => by
    rw [getD_replicate_nil] at ha
    cases ha
  nodup := fun i => by
    rw [getD_replicate_nil]
    exact List.nodup_nil

theorem Inv.set (h : Inv key slot bs) {i : ℕ} {l : List α} (hl : ∀ a ∈ l, slot (key a) = i)
    (hn : (l.map key).Nodup) : Inv key slot (bs.set i l) where
  placed := fun j a ha => by
    rw [getD_set] at ha
    split_ifs at ha with hij
    · rw [hl a ha, hij.1]
    · exact h.placed j a ha
  nodup := fun j => by
    rw [getD_set]
    split_ifs
    · exact hn
    · exact h.nodup j

theorem mem_flatten_iff_getD {a : α} : a ∈ bs.flatten ↔ ∃ i, a ∈ bs.getD i [] := by
  simp only [List.mem_flatten, List.getD_eq_getElem?_getD]
  constructor
  · rintro ⟨l, hl, ha⟩
    obtain ⟨i, hi⟩ := List.mem_iff_getElem?.mp hl
    exact ⟨i, by rw [hi]; exact ha⟩
  · rintro ⟨i, ha⟩
    rcases hi : bs[i]? with _ | l
    · rw [hi] at ha
      simp at ha
    · rw [hi] at ha
      exact ⟨l, List.mem_iff_getElem?.mpr ⟨i, hi⟩, ha⟩

/-- An element is in the table exactly when it is in the chain its key selects. -/
theorem Inv.mem_flatten_iff (h : Inv key slot bs) {a : α} :
    a ∈ bs.flatten ↔ a ∈ bs.getD (slot (key a)) [] := by
  rw [mem_flatten_iff_getD]
  constructor
  · rintro ⟨i, ha⟩
    rwa [h.placed i a ha]
  · exact fun ha => ⟨_, ha⟩

/-- With chain `i` replaced, the elements whose key selects `i` are those of the new chain and the
others are as before. -/
theorem Inv.mem_flatten_set (h : Inv key slot bs) {i : ℕ} {l : List α} (hi : i < bs.length)
    (hl : ∀ a ∈ l, slot (key a) = i) (hn : (l.map key).Nodup) {a : α} :
    a ∈ (bs.set i l).flatten ↔ if slot (key a) = i then a ∈ l else a ∈ bs.flatten := by
  rw [(h.set hl hn).mem_flatten_iff, getD_set, h.mem_flatten_iff]
  by_cases hs : slot (key a) = i
  · rw [if_pos ⟨hs.symm, hi⟩, if_pos hs]
  · rw [if_neg fun hc => hs hc.1.symm, if_neg hs]

theorem nodup_flatten_of :
    ∀ {bs : List (List α)} (n : ℕ), (∀ i, ∀ a ∈ bs.getD i [], slot (key a) = n + i) →
      (∀ i, ((bs.getD i []).map key).Nodup) → (bs.flatten.map key).Nodup
  | [], _, _, _ => by simp
  | l :: bs, n, hp, hn => by
    have hhead : ∀ a ∈ l, slot (key a) = n := hp 0
    have htail : ∀ i, ∀ a ∈ bs.getD i [], slot (key a) = n + 1 + i := fun i a ha => by
      have := hp (i + 1) a (by simpa using ha)
      omega
    have hrest := nodup_flatten_of (n + 1) htail (fun i => by simpa using hn (i + 1))
    rw [List.flatten_cons, List.map_append, List.nodup_append']
    refine ⟨by simpa using hn 0, hrest, ?_⟩
    intro k hk hk'
    obtain ⟨a, ha, rfl⟩ := List.mem_map.mp hk
    obtain ⟨b, hb, hab⟩ := List.mem_map.mp hk'
    obtain ⟨i, hi⟩ := mem_flatten_iff_getD.mp hb
    have h1 := hhead a ha
    have h2 := htail i b hi
    rw [hab] at h2
    omega

theorem Inv.nodup_flatten (h : Inv key slot bs) : (bs.flatten.map key).Nodup := by
  have hslot : ∀ i, ∀ a ∈ bs.getD i [], slot (key a) = 0 + i := fun i a ha => by
    rw [h.placed i a ha, Nat.zero_add]
  exact nodup_flatten_of 0 hslot h.nodup

end Chained
