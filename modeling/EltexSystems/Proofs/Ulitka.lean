import EltexSystems.Ulitka

/-!
# The spiral is a walk

The four bounds enclose the places that are still free, and the place stored in last is one to which
a walker has come that turns right where it cannot go straight on (`Walked`).  Each inner loop takes
the walker along one side of the rectangle (`fill_side`), a layer along all four (`walked_layer`),
and the counter reaches `N * N` when nothing is free (`ulitka_spiral`).
-/

namespace EltexSystems

open Walker

namespace Ulitka

variable {N : ℤ} {s : Ulitka} {w : Walker} {rest rest' : Finset (ℤ × ℤ)}

section Sides

theorem mem_rect {t b l r : ℤ} {x : ℤ × ℤ} :
    x ∈ rect t b l r ↔ (t ≤ x.1 ∧ x.1 < b) ∧ l ≤ x.2 ∧ x.2 < r := by
  simp only [rect, Finset.mem_image, Finset.mem_product, Finset.mem_range]
  constructor
  · rintro ⟨p, hp, rfl⟩
    dsimp only
    omega
  · rintro hx
    refine ⟨((x.1 - t).toNat, (x.2 - l).toNat), ?_, Prod.ext ?_ ?_⟩
    · dsimp only
      omega
    · dsimp only
      omega
    · dsimp only
      omega

theorem mem_upFrom {i lo hi : ℤ} : i ∈ upFrom lo hi ↔ lo ≤ i ∧ i < hi := by
  simp only [upFrom, List.mem_map, List.mem_range]
  constructor
  · rintro ⟨k, hk, rfl⟩
    omega
  · rintro ⟨hlo, hhi⟩
    exact ⟨(i - lo).toNat, by omega, by omega⟩

theorem mem_downFrom {i lo hi : ℤ} : i ∈ downFrom hi lo ↔ lo ≤ i ∧ i ≤ hi := by
  simp only [downFrom, List.mem_map, List.mem_range]
  constructor
  · rintro ⟨k, hk, rfl⟩
    omega
  · rintro ⟨hlo, hhi⟩
    exact ⟨(hi - i).toNat, by omega, by omega⟩

theorem mem_row {x : ℤ × ℤ} {t : ℤ} {is : List ℤ} :
    x ∈ is.map (fun i => (t, i)) ↔ x.1 = t ∧ x.2 ∈ is := by
  rw [List.mem_map]
  constructor
  · rintro ⟨i, hi, rfl⟩
    exact ⟨rfl, hi⟩
  · rintro ⟨rfl, hi⟩
    exact ⟨x.2, hi, rfl⟩

theorem mem_column {x : ℤ × ℤ} {c : ℤ} {is : List ℤ} :
    x ∈ is.map (fun i => (i, c)) ↔ x.2 = c ∧ x.1 ∈ is := by
  rw [List.mem_map]
  constructor
  · rintro ⟨i, hi, rfl⟩
    exact ⟨rfl, hi⟩
  · rintro ⟨rfl, hi⟩
    exact ⟨x.1, hi, rfl⟩

theorem upFrom_row (t l r : ℤ) :
    (upFrom l r).map (fun i => (t, i)) = side (t, l - 1) .east (r - l).toNat := by
  unfold upFrom side
  rw [List.map_map]
  refine List.map_congr_left fun i _ => ?_
  simp only [Function.comp_apply, ahead_east, Prod.mk.injEq, true_and]
  omega

theorem upFrom_column (t b c : ℤ) :
    (upFrom t b).map (fun i => (i, c)) = side (t - 1, c) .south (b - t).toNat := by
  unfold upFrom side
  rw [List.map_map]
  refine List.map_congr_left fun i _ => ?_
  simp only [Function.comp_apply, ahead_south, Prod.mk.injEq, and_true]
  omega

theorem downFrom_row (t hi lo : ℤ) :
    (downFrom hi lo).map (fun i => (t, i)) = side (t, hi + 1) .west (hi + 1 - lo).toNat := by
  unfold downFrom side
  rw [List.map_map]
  refine List.map_congr_left fun i _ => ?_
  simp only [Function.comp_apply, ahead_west, Prod.mk.injEq, true_and]
  omega

theorem downFrom_column (hi lo c : ℤ) :
    (downFrom hi lo).map (fun i => (i, c)) = side (hi + 1, c) .north (hi + 1 - lo).toNat := by
  unfold downFrom side
  rw [List.map_map]
  refine List.map_congr_left fun i _ => ?_
  simp only [Function.comp_apply, ahead_north, Prod.mk.injEq, and_true]
  omega

end Sides

section Fill

theorem int_of_le {z : ℤ} (h0 : INT_MIN ≤ z) (h : z ≤ INT_MAX) : int z = some z := if_pos ⟨h0, h⟩

/-- The numbers stored are those from 1 on, each in its place. -/
structure Written (s : Ulitka) : Prop where
  num : s.num = s.writes.length + 1
  numbers : s.writes.map Prod.snd = (List.range s.writes.length).map fun k : ℕ => (k : ℤ) + 1
  holds : ∀ p ∈ s.writes, s.matrix p.1 = some p.2

/-- Only what a loop stores and counts is changed. -/
def SameBounds (s s' : Ulitka) : Prop :=
  s'.top = s.top ∧ s'.bottom = s.bottom ∧ s'.left = s.left ∧ s'.right = s.right

theorem store_written (hs : s.Written) {c : ℤ × ℤ} (hc : c ∈ cells N)
    (hnew : c ∉ s.writes.map Prod.fst) (hmax : s.writes.length + 2 ≤ INT_MAX) :
    ∃ s', s.store N c = some s' ∧ s'.Written ∧
      s'.writes.map Prod.fst = s.writes.map Prod.fst ++ [c] ∧ s.SameBounds s' := by
  have hnum : int (s.num + 1) = some (s.num + 1) := by
    have hmin : INT_MIN = -2 ^ 31 := rfl
    exact int_of_le (by rw [hs.num]; omega) (by rw [hs.num]; omega)
  have hstore : s.store N c = some { s with
      num := s.num + 1
      matrix := Function.update s.matrix c (some s.num)
      writes := s.writes ++ [(c, s.num)] } := by
    rw [store, if_pos hc, hnum, Option.map_some]
  refine ⟨_, hstore, ⟨?_, ?_, ?_⟩, List.map_append, rfl, rfl, rfl, rfl⟩
  · change s.num + 1 = ((s.writes ++ [(c, s.num)]).length : ℤ) + 1
    rw [List.length_append, List.length_singleton, hs.num]
    rfl
  · change (s.writes ++ [(c, s.num)]).map Prod.snd = _
    rw [List.map_append, hs.numbers]
    change _ = (List.range (s.writes ++ [(c, s.num)]).length).map _
    rw [List.length_append, List.length_singleton, List.range_succ, List.map_append, hs.num]
    rfl
  · intro p hp
    change Function.update s.matrix c (some s.num) p.1 = some p.2
    rcases List.mem_append.mp hp with hp | hp
    · rw [Function.update_of_ne fun heq : p.1 = c => hnew (heq ▸ List.mem_map_of_mem hp)]
      exact hs.holds p hp
    · rw [List.mem_singleton.mp hp, Function.update_self]

theorem fill_written {cs : List (ℤ × ℤ)} : ∀ {s : Ulitka}, s.Written →
    (∀ c ∈ cs, c ∈ cells N) → (s.writes.map Prod.fst ++ cs).Nodup →
    s.writes.length + cs.length + 1 ≤ INT_MAX →
    ∃ s', s.fill N cs = some s' ∧ s'.Written ∧
      s'.writes.map Prod.fst = s.writes.map Prod.fst ++ cs ∧ s.SameBounds s' := by
  induction cs with
  | nil =>
    intro s hs _ _ _
    exact ⟨s, rfl, hs, (List.append_nil _).symm, rfl, rfl, rfl, rfl⟩
  | cons c cs ih =>
    intro s hs hin hnodup hmax
    rw [List.length_cons] at hmax
    push_cast at hmax
    have hnew : c ∉ s.writes.map Prod.fst := fun hc =>
      (List.nodup_append.mp hnodup).2.2 c hc c List.mem_cons_self rfl
    obtain ⟨s₁, hstore, hs₁, hcells, hbounds⟩ :=
      store_written hs (hin c List.mem_cons_self) hnew (by omega)
    have hlen : s₁.writes.length = s.writes.length + 1 := by
      have := congrArg List.length hcells
      simpa using this
    obtain ⟨s', hfill, hs', hcells', hbounds'⟩ := ih hs₁
      (fun c hc => hin c (List.mem_cons_of_mem _ hc))
      (by rw [hcells, List.append_assoc]; exact hnodup) (by rw [hlen]; push_cast; omega)
    refine ⟨s', ?_, hs', by rw [hcells', hcells, List.append_assoc]; rfl, ?_⟩
    · rw [fill, List.foldlM_cons, hstore]
      exact hfill
    · obtain ⟨h1, h2, h3, h4⟩ := hbounds
      obtain ⟨h1', h2', h3', h4'⟩ := hbounds'
      exact ⟨h1'.trans h1, h2'.trans h2, h3'.trans h3, h4'.trans h4⟩

end Fill

section Walk

/-- A walker before its first step into the corner. -/
def first : Walker := ⟨(0, -1), .north, []⟩

/-- The walker has come to the places stored in, and the rest is free. -/
structure Walked (N : ℤ) (s : Ulitka) (w : Walker) (rest : Finset (ℤ × ℤ)) : Prop where
  written : s.Written
  visited : s.writes.map Prod.fst = w.visited
  path : w = walk (cells N) first s.writes.length
  leaves : Leaves (cells N) w rest

theorem card_cells (h : 0 ≤ N) : ((cells N).card : ℤ) = N * N := by
  unfold cells rect
  rw [Finset.card_image_of_injective, Finset.card_product, Finset.card_range, sub_zero,
    Nat.cast_mul, Int.toNat_of_nonneg h]
  intro p q hpq
  obtain ⟨h1, h2⟩ := Prod.ext_iff.mp hpq
  exact Prod.ext (by simpa using h1) (by simpa using h2)

/-- An inner loop takes the walker along a side. -/
theorem fill_side {cs : List (ℤ × ℤ)} {c : ℤ × ℤ} {h : Heading} {k : ℕ} (hcs : cs = side c h k)
    (hN : 0 ≤ N) (hmax : N * N < INT_MAX) (hs : s.Walked N w rest)
    (hpos : 0 < k → w.cell = c ∧ w.heading.right = h ∧ ahead c w.heading 1 ∉ rest)
    (hsplit : ∀ x, (x ∈ cs → x ∈ rest) ∧ (x ∈ rest' ↔ x ∈ rest ∧ x ∉ cs)) :
    ∃ s' w', s.fill N cs = some s' ∧ s'.Walked N w' rest' ∧
      (0 < k → w'.heading = h ∧ w'.cell = ahead c h k) ∧ s.SameBounds s' := by
  subst hcs
  have hrest : rest \ (side c h k).toFinset = rest' := by
    ext x
    rw [Finset.mem_sdiff, List.mem_toFinset, (hsplit x).2]
  rw [← hrest]
  rcases Nat.eq_zero_or_pos k with rfl | hk
  · refine ⟨s, w, rfl, ?_, fun h0 => absurd h0 (lt_irrefl 0), rfl, rfl, rfl, rfl⟩
    rwa [show rest \ (side c h 0).toFinset = rest from Finset.sdiff_empty]
  · obtain ⟨rfl, rfl, hblocked⟩ := hpos hk
    obtain ⟨hvisited, hleaves, hend⟩ := walk_side (k := k) hs.leaves hblocked
      fun i hi => (hsplit _).1 (mem_side.mpr ⟨i, hi, rfl⟩)
    have hcard := congrArg (Nat.cast (R := ℤ)) hleaves.card
    rw [Nat.cast_add, card_cells hN, hvisited, List.length_append, Nat.cast_add] at hcard
    have hlen : s.writes.length = w.visited.length := by
      rw [← hs.visited, List.length_map]
    have hnodup : (s.writes.map Prod.fst ++ side w.cell w.heading.right k).Nodup := by
      rw [hs.visited, ← hvisited]
      exact hleaves.nodup
    obtain ⟨s', hfill, hs', hcells, hbounds⟩ := fill_written (N := N) hs.written
      (fun c hc => hleaves.inside c (hvisited ▸ List.mem_append_right _ hc)) hnodup (by omega)
    have hlen' : s'.writes.length = k + s.writes.length := by
      have := congrArg List.length hcells
      rw [List.length_append, List.length_map, List.length_map] at this
      rw [this, side, List.length_map, List.length_range, Nat.add_comm]
    refine ⟨s', walk (cells N) w k, hfill, ⟨hs', ?_, ?_, hleaves⟩, hend, hbounds⟩
    · rw [hcells, hs.visited, hvisited]
    · rw [hlen', walk_add, ← hs.path]

theorem Walked.congr {s' : Ulitka} (h : s.Walked N w rest) (hnum : s'.num = s.num)
    (hmatrix : s'.matrix = s.matrix) (hwrites : s'.writes = s.writes) : s'.Walked N w rest := by
  obtain ⟨⟨h1, h2, h3⟩, h4, h5, h6⟩ := h
  refine ⟨⟨?_, ?_, ?_⟩, ?_, ?_, h6⟩
  · rw [hnum, hwrites, h1]
  · rw [hwrites, h2]
  · rw [hwrites, hmatrix]
    exact h3
  · rw [hwrites, h4]
  · rw [hwrites, h5]

/-- What is free lies between the bounds. -/
def Around (N : ℤ) (s : Ulitka) (w : Walker) : Prop :=
  s.Walked N w (rect s.top s.bottom s.left s.right)

theorem fillTop_around (hN : 0 ≤ N) (hmax : N * N < INT_MAX) (hs : s.Around N w)
    (hpos : s.left < s.right → w.cell = (s.top, s.left - 1) ∧ w.heading = .north)
    (hrow : s.left < s.right → s.top < s.bottom) (hint : int (s.top + 1) = some (s.top + 1)) :
    ∃ s' w', s.fillTop N = some s' ∧ s'.Around N w' ∧ (s'.top = s.top + 1 ∧
      s'.bottom = s.bottom ∧ s'.left = s.left ∧ s'.right = s.right) ∧
      (s.left < s.right → w'.cell = (s.top, s.right - 1) ∧ w'.heading = .east) := by
  have hblocked : 0 < (s.right - s.left).toNat → w.cell = (s.top, s.left - 1) ∧
      w.heading.right = .east ∧
        ahead (s.top, s.left - 1) w.heading 1 ∉ rect s.top s.bottom s.left s.right := by
    intro hk
    obtain ⟨hcell, hheading⟩ := hpos (by omega)
    rw [hheading, mem_rect]
    refine ⟨hcell, rfl, ?_⟩
    simp only [ahead_north]
    omega
  have hsplit : ∀ x,
      (x ∈ (upFrom s.left s.right).map (fun i => (s.top, i)) →
        x ∈ rect s.top s.bottom s.left s.right) ∧
      (x ∈ rect (s.top + 1) s.bottom s.left s.right ↔ x ∈ rect s.top s.bottom s.left s.right ∧
        x ∉ (upFrom s.left s.right).map (fun i => (s.top, i))) := by
    intro x
    simp only [mem_rect, mem_row, mem_upFrom]
    omega
  obtain ⟨s', w', hfill, hs', hend, ht, hb, hl, hr⟩ :=
    fill_side (upFrom_row s.top s.left s.right) hN hmax hs hblocked hsplit
  refine ⟨{ s' with top := s.top + 1 }, w', ?_, ?_, ⟨rfl, hb, hl, hr⟩, fun hlr => ?_⟩
  · rw [fillTop, hfill, Option.bind_some, ht, hint, Option.map_some]
  · unfold Around
    simp only [hb, hl, hr]
    exact hs'.congr rfl rfl rfl
  · obtain ⟨hheading, hcell⟩ := hend (by omega)
    refine ⟨hcell.trans ?_, hheading⟩
    simp only [ahead_east, Prod.mk.injEq, true_and]
    omega

theorem fillRight_around (hN : 0 ≤ N) (hmax : N * N < INT_MAX) (hs : s.Around N w)
    (hpos : s.top < s.bottom → w.cell = (s.top - 1, s.right - 1) ∧ w.heading = .east)
    (hrow : s.top < s.bottom → s.left < s.right) (hint : int (s.right - 1) = some (s.right - 1)) :
    ∃ s' w', s.fillRight N = some s' ∧ s'.Around N w' ∧ (s'.top = s.top ∧
      s'.bottom = s.bottom ∧ s'.left = s.left ∧ s'.right = s.right - 1) ∧
      (s.top < s.bottom → w'.cell = (s.bottom - 1, s.right - 1) ∧ w'.heading = .south) := by
  have hblocked : 0 < (s.bottom - s.top).toNat → w.cell = (s.top - 1, s.right - 1) ∧
      w.heading.right = .south ∧
        ahead (s.top - 1, s.right - 1) w.heading 1 ∉ rect s.top s.bottom s.left s.right := by
    intro hk
    obtain ⟨hcell, hheading⟩ := hpos (by omega)
    rw [hheading, mem_rect]
    refine ⟨hcell, rfl, ?_⟩
    simp only [ahead_east]
    omega
  have hsplit : ∀ x,
      (x ∈ (upFrom s.top s.bottom).map (fun i => (i, s.right - 1)) →
        x ∈ rect s.top s.bottom s.left s.right) ∧
      (x ∈ rect s.top s.bottom s.left (s.right - 1) ↔ x ∈ rect s.top s.bottom s.left s.right ∧
        x ∉ (upFrom s.top s.bottom).map (fun i => (i, s.right - 1))) := by
    intro x
    simp only [mem_rect, mem_column, mem_upFrom]
    omega
  obtain ⟨s', w', hfill, hs', hend, ht, hb, hl, hr⟩ :=
    fill_side (upFrom_column s.top s.bottom (s.right - 1)) hN hmax hs hblocked hsplit
  refine ⟨{ s' with right := s.right - 1 }, w', ?_, ?_, ⟨ht, hb, hl, rfl⟩, fun htb => ?_⟩
  · rw [fillRight, hfill, Option.bind_some, hr, hint, Option.map_some]
  · unfold Around
    simp only [ht, hb, hl]
    exact hs'.congr rfl rfl rfl
  · obtain ⟨hheading, hcell⟩ := hend (by omega)
    refine ⟨hcell.trans ?_, hheading⟩
    simp only [ahead_south, Prod.mk.injEq, and_true]
    omega

theorem fillBottom_around (hN : 0 ≤ N) (hmax : N * N < INT_MAX) (hs : s.Around N w)
    (hpos : s.left < s.right → w.cell = (s.bottom - 1, s.right) ∧ w.heading = .south)
    (hrow : s.left < s.right → s.top < s.bottom)
    (hint : int (s.bottom - 1) = some (s.bottom - 1)) :
    ∃ s' w', s.fillBottom N = some s' ∧ s'.Around N w' ∧ (s'.top = s.top ∧
      s'.bottom = s.bottom - 1 ∧ s'.left = s.left ∧ s'.right = s.right) ∧
      (s.left < s.right → w'.cell = (s.bottom - 1, s.left) ∧ w'.heading = .west) := by
  have hblocked : 0 < (s.right - 1 + 1 - s.left).toNat →
      w.cell = (s.bottom - 1, s.right - 1 + 1) ∧ w.heading.right = .west ∧
        ahead (s.bottom - 1, s.right - 1 + 1) w.heading 1 ∉
          rect s.top s.bottom s.left s.right := by
    intro hk
    obtain ⟨hcell, hheading⟩ := hpos (by omega)
    rw [hheading, mem_rect, sub_add_cancel]
    refine ⟨hcell, rfl, ?_⟩
    simp only [ahead_south]
    omega
  have hsplit : ∀ x,
      (x ∈ (downFrom (s.right - 1) s.left).map (fun i => (s.bottom - 1, i)) →
        x ∈ rect s.top s.bottom s.left s.right) ∧
      (x ∈ rect s.top (s.bottom - 1) s.left s.right ↔ x ∈ rect s.top s.bottom s.left s.right ∧
        x ∉ (downFrom (s.right - 1) s.left).map (fun i => (s.bottom - 1, i))) := by
    intro x
    simp only [mem_rect, mem_row, mem_downFrom]
    omega
  obtain ⟨s', w', hfill, hs', hend, ht, hb, hl, hr⟩ :=
    fill_side (downFrom_row (s.bottom - 1) (s.right - 1) s.left) hN hmax hs hblocked hsplit
  refine ⟨{ s' with bottom := s.bottom - 1 }, w', ?_, ?_, ⟨ht, rfl, hl, hr⟩, fun hlr => ?_⟩
  · rw [fillBottom, hfill, Option.bind_some, hb, hint, Option.map_some]
  · unfold Around
    simp only [ht, hl, hr]
    exact hs'.congr rfl rfl rfl
  · obtain ⟨hheading, hcell⟩ := hend (by omega)
    refine ⟨hcell.trans ?_, hheading⟩
    simp only [ahead_west, Prod.mk.injEq, true_and]
    omega

theorem fillLeft_around (hN : 0 ≤ N) (hmax : N * N < INT_MAX) (hs : s.Around N w)
    (hpos : s.top < s.bottom → w.cell = (s.bottom, s.left) ∧ w.heading = .west)
    (hrow : s.top < s.bottom → s.left < s.right) (hint : int (s.left + 1) = some (s.left + 1)) :
    ∃ s' w', s.fillLeft N = some s' ∧ s'.Around N w' ∧ (s'.top = s.top ∧
      s'.bottom = s.bottom ∧ s'.left = s.left + 1 ∧ s'.right = s.right) ∧
      (s.top < s.bottom → w'.cell = (s.top, s.left) ∧ w'.heading = .north) := by
  have hblocked : 0 < (s.bottom - 1 + 1 - s.top).toNat →
      w.cell = (s.bottom - 1 + 1, s.left) ∧ w.heading.right = .north ∧
        ahead (s.bottom - 1 + 1, s.left) w.heading 1 ∉ rect s.top s.bottom s.left s.right := by
    intro hk
    obtain ⟨hcell, hheading⟩ := hpos (by omega)
    rw [hheading, mem_rect, sub_add_cancel]
    refine ⟨hcell, rfl, ?_⟩
    simp only [ahead_west]
    omega
  have hsplit : ∀ x,
      (x ∈ (downFrom (s.bottom - 1) s.top).map (fun i => (i, s.left)) →
        x ∈ rect s.top s.bottom s.left s.right) ∧
      (x ∈ rect s.top s.bottom (s.left + 1) s.right ↔ x ∈ rect s.top s.bottom s.left s.right ∧
        x ∉ (downFrom (s.bottom - 1) s.top).map (fun i => (i, s.left))) := by
    intro x
    simp only [mem_rect, mem_column, mem_downFrom]
    omega
  obtain ⟨s', w', hfill, hs', hend, ht, hb, hl, hr⟩ :=
    fill_side (downFrom_column (s.bottom - 1) s.top s.left) hN hmax hs hblocked hsplit
  refine ⟨{ s' with left := s.left + 1 }, w', ?_, ?_, ⟨ht, hb, rfl, hr⟩, fun htb => ?_⟩
  · rw [fillLeft, hfill, Option.bind_some, hl, hint, Option.map_some]
  · unfold Around
    simp only [ht, hb, hr]
    exact hs'.congr rfl rfl rfl
  · obtain ⟨hheading, hcell⟩ := hend (by omega)
    refine ⟨hcell.trans ?_, hheading⟩
    simp only [ahead_north, Prod.mk.injEq, and_true]
    omega

end Walk

section Loop

/-- The state before a layer: the free places make up a square, and the walker has come to the place
left of its first row. -/
structure AtLayer (N : ℤ) (s : Ulitka) (w : Walker) : Prop where
  around : s.Around N w
  square : s.bottom - s.top = s.right - s.left
  inside : 0 ≤ s.top ∧ s.bottom ≤ N ∧ 0 ≤ s.left ∧ s.right ≤ N
  facing : s.top < s.bottom → w.cell = (s.top, s.left - 1) ∧ w.heading = .north

theorem le_square {n : ℤ} (h : 1 ≤ n) : n ≤ n * n := by nlinarith

theorem walked_layer (hmax : N * N < INT_MAX) (hs : AtLayer N s w) (hfree : s.top < s.bottom) :
    ∃ s' w', s.layer N = some s' ∧ AtLayer N s' w' ∧ s'.bottom - s'.top = s.bottom - s.top - 2 := by
  obtain ⟨haround, hsquare, ⟨h1, h2, h3, h4⟩, hfacing⟩ := hs
  have hmaxint : INT_MAX = 2 ^ 31 - 1 := rfl
  have hminint : INT_MIN = -2 ^ 31 := rfl
  have hsq := le_square (n := N) (by omega)
  have hint : ∀ {z : ℤ}, -1 ≤ z → z ≤ N → int z = some z := fun h0 hz =>
    int_of_le (by omega) (by omega)
  obtain ⟨s₁, w₁, hlayer₁, haround₁, ⟨ht₁, hb₁, hl₁, hr₁⟩, hfacing₁⟩ :=
    fillTop_around (by omega) hmax haround (fun _ => hfacing hfree) (fun _ => hfree)
      (hint (by omega) (by omega))
  obtain ⟨s₂, w₂, hlayer₂, haround₂, ⟨ht₂, hb₂, hl₂, hr₂⟩, hfacing₂⟩ :=
    fillRight_around (by omega) hmax haround₁
      (fun _ => by rw [ht₁, hr₁, add_sub_cancel_right]; exact hfacing₁ (by omega))
      (by omega) (hint (by omega) (by omega))
  obtain ⟨s₃, w₃, hlayer₃, haround₃, ⟨ht₃, hb₃, hl₃, hr₃⟩, hfacing₃⟩ :=
    fillBottom_around (by omega) hmax haround₂
      (fun _ => by rw [hb₂, hr₂]; exact hfacing₂ (by omega))
      (by omega) (hint (by omega) (by omega))
  obtain ⟨s₄, w₄, hlayer₄, haround₄, ⟨ht₄, hb₄, hl₄, hr₄⟩, hfacing₄⟩ :=
    fillLeft_around (by omega) hmax haround₃
      (fun _ => by rw [hb₃, hl₃]; exact hfacing₃ (by omega))
      (by omega) (hint (by omega) (by omega))
  refine ⟨s₄, w₄, ?_, ⟨haround₄, by omega, by omega, fun h => ?_⟩, by omega⟩
  · rw [layer, hlayer₁, Option.bind_some, hlayer₂, Option.bind_some, hlayer₃, Option.bind_some,
      hlayer₄]
  · rw [ht₄, hl₄, add_sub_cancel_right]
    exact hfacing₄ (by omega)

/-- The counter has not passed `N * N` while something is free. -/
theorem num_le_iff (hN : 0 ≤ N) (hs : AtLayer N s w) : s.num ≤ N * N ↔ s.top < s.bottom := by
  have hcard := congrArg (Nat.cast (R := ℤ)) hs.around.leaves.card
  rw [Nat.cast_add, card_cells hN, ← hs.around.visited, List.length_map] at hcard
  have hpos : 0 < (rect s.top s.bottom s.left s.right).card ↔ s.top < s.bottom := by
    rw [Finset.card_pos]
    constructor
    · rintro ⟨x, hx⟩
      rw [mem_rect] at hx
      omega
    · have := hs.square
      exact fun h => ⟨(s.top, s.left), mem_rect.mpr (by simp; omega)⟩
  rw [← hpos, hs.around.written.num]
  omega

/-- The loop ends, without a fault, when nothing is free. -/
theorem loop_walked (hN : 0 ≤ N) (hmax : N * N < INT_MAX) : ∀ {fuel : ℕ} {s : Ulitka} {w : Walker},
    AtLayer N s w → s.bottom - s.top ≤ fuel → ∃ s' w', loop N fuel s = some s' ∧
      AtLayer N s' w' ∧ s'.bottom ≤ s'.top := by
  intro fuel
  have hsquare : int (N * N) = some (N * N) := by
    have hminint : INT_MIN = -2 ^ 31 := rfl
    have := mul_self_nonneg N
    exact int_of_le (by omega) hmax.le
  induction fuel with
  | zero =>
    intro s w hs hfuel
    have hdone : ¬ s.num ≤ N * N := by
      rw [num_le_iff hN hs]
      omega
    refine ⟨s, w, ?_, hs, by omega⟩
    rw [loop, hsquare, Option.bind_some, if_neg hdone]
  | succ fuel ih =>
    intro s w hs hfuel
    rw [loop, hsquare, Option.bind_some]
    by_cases hmore : s.num ≤ N * N
    · obtain ⟨s₁, w₁, hlayer, hs₁, hsize⟩ := walked_layer hmax hs ((num_le_iff hN hs).mp hmore)
      rw [if_pos hmore, hlayer, Option.bind_some]
      exact ih hs₁ (by omega)
    · rw [if_neg hmore]
      refine ⟨s, w, rfl, hs, ?_⟩
      rw [num_le_iff hN hs] at hmore
      omega

/-- The first step of the walker leads into the corner. -/
theorem walk_first (N : ℤ) (k : ℕ) :
    walk (cells N) first (k + 1) = walk (cells N) ⟨(0, 0), .east, [(0, 0)]⟩ k := by
  have hstep : step (cells N) first = ⟨(0, 0), .east, [(0, 0)]⟩ := by
    refine if_neg fun hcorner => ?_
    exact absurd (mem_rect.mp hcorner.1).1.1 (by decide)
  rw [walk_add, ← hstep]
  rfl

theorem atLayer_start (N : ℤ) : AtLayer N (start N) first where
  around :=
    { written := ⟨rfl, rfl, fun _ hp => nomatch hp⟩
      visited := rfl
      path := rfl
      leaves := ⟨List.nodup_nil, (fun _ hc => nomatch hc), fun _ =>
        ⟨fun hc => ⟨hc, List.not_mem_nil⟩, fun hc => hc.1⟩⟩ }
  square := rfl
  inside := ⟨le_rfl, le_rfl, le_rfl, le_rfl⟩
  facing _ := ⟨rfl, rfl⟩

/-- A walk that has left nothing is the spiral. -/
theorem spiral_of_done (h : 1 ≤ N) (hs : AtLayer N s w) (hdone : s.bottom ≤ s.top) :
    Spiral N s := by
  obtain ⟨⟨hwritten, hvisited, hpath, hleaves⟩, -, -, -⟩ := hs
  have hempty : rect s.top s.bottom s.left s.right = ∅ := by
    ext x
    rw [mem_rect]
    simp only [Finset.notMem_empty, iff_false]
    omega
  rw [hempty] at hleaves
  have hlen : s.writes.length = (N * N).toNat := by
    have hcard := congrArg (Nat.cast (R := ℤ)) hleaves.card
    rw [Finset.card_empty, card_cells (by omega), ← hvisited, List.length_map] at hcard
    omega
  have hcells : s.writes.map Prod.fst = (List.range (N * N).toNat).map fun k =>
      (walk (cells N) ⟨(0, 0), .east, [(0, 0)]⟩ k).cell := by
    rw [hvisited, hpath, visited_walk, hlen]
    simp only [walk_first]
    rfl
  have hat : ∀ {k : ℕ} {p : (ℤ × ℤ) × ℤ}, s.writes[k]? = some p →
      p.1 = (walk (cells N) ⟨(0, 0), .east, [(0, 0)]⟩ k).cell := by
    intro k p hp
    have hk := congrArg (·[k]?) hcells
    simp only [List.getElem?_map, hp, Option.map_some] at hk
    rw [List.getElem?_range (hlen ▸ (List.getElem?_eq_some_iff.mp hp).1)] at hk
    exact Option.some.inj hk
  refine ⟨fun p hp => ?_, ?_, fun c hc => ?_, ?_, hwritten.holds, ?_, fun k p q hp hq => ?_, hcells⟩
  · exact hleaves.inside _ (hvisited ▸ List.mem_map_of_mem hp)
  · exact hvisited ▸ hleaves.nodup
  · rw [hvisited]
    by_contra hnew
    exact absurd ((hleaves.free c).mpr ⟨hc, hnew⟩) (Finset.notMem_empty c)
  · rw [hwritten.numbers, hlen]
  · rcases hw : s.writes with _ | ⟨p, ps⟩
    · have := le_square h
      rw [hw, List.length_nil] at hlen
      omega
    · have hcell : p.1 = (0, 0) := hat (k := 0) (by rw [hw]; rfl)
      have hnum := congrArg List.head? hwritten.numbers
      rw [hw, List.map_cons, List.head?_cons, List.length_cons, List.range_succ_eq_map] at hnum
      exact congrArg some (Prod.ext hcell (Option.some.inj hnum))
  · rw [hat hp, hat hq]
    exact walk_adjacent _ _ _

theorem loop_succ {t : Ulitka} : ∀ {fuel : ℕ} {s : Ulitka}, loop N fuel s = some t →
    loop N (fuel + 1) s = some t := by
  intro fuel
  induction fuel with
  | zero =>
    intro s h
    unfold loop at h ⊢
    obtain ⟨square, hsquare, h⟩ := Option.bind_eq_some_iff.mp h
    rw [hsquare, Option.bind_some]
    split_ifs at h ⊢
    exact h
  | succ fuel ih =>
    intro s h
    unfold loop at h ⊢
    obtain ⟨square, hsquare, h⟩ := Option.bind_eq_some_iff.mp h
    rw [hsquare, Option.bind_some]
    split_ifs at h ⊢
    · obtain ⟨u, hlayer, h⟩ := Option.bind_eq_some_iff.mp h
      rw [hlayer, Option.bind_some]
      exact ih h
    · exact h

/-- The loop ends for every size whose square is small enough, and the matrix holds the spiral. -/
theorem ulitka_spiral (h : 1 ≤ N) (hmax : N * N < 2 ^ 31 - 1) :
    ∃ s, (∀ fuel : ℕ, N ≤ fuel → loop N fuel (start N) = some s) ∧ Spiral N s := by
  have hfuel : (start N).bottom - (start N).top ≤ N.toNat := by
    change N - 0 ≤ N.toNat
    omega
  obtain ⟨s, w, hloop, hs, hdone⟩ := loop_walked (by omega) hmax (atLayer_start N) hfuel
  refine ⟨s, fun fuel hle => ?_, spiral_of_done h hs hdone⟩
  have hle : N.toNat ≤ fuel := by omega
  induction fuel, hle using Nat.le_induction with
  | base => exact hloop
  | succ fuel hle ih => exact loop_succ (ih (by omega))

/-- The matrix of size 3 ends in its middle. -/
theorem ulitka_spiral_three : ∃ s, (∀ fuel : ℕ, (3 : ℤ) ≤ fuel → loop 3 fuel (start 3) = some s) ∧
    Spiral 3 s ∧ s.matrix (1, 1) = some 9 := by
  obtain ⟨s, hloop, hs⟩ := ulitka_spiral (N := 3) (by decide) (by decide)
  have hmiddle : (loop 3 3 (start 3)).bind (fun s => s.matrix (1, 1)) = some 9 := by decide
  rw [hloop 3 (by decide)] at hmiddle
  exact ⟨s, hloop, hs, hmiddle⟩

end Loop

end Ulitka

end EltexSystems
