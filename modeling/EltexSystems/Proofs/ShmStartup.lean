import EltexSystems.Proofs.ShmLog
import EltexSystems.ShmStartup

/-!
# The startup of the shared memory chat keeps every registration

No client finds the semaphore before the segment is zeroed, and none takes it before it is set, so
the lock excludes throughout the startup (`present_of_startup`).  A client obtains the lock with
nobody registering, so names are stored in the order in which the lock was obtained
(`Order.step`), up to the tenth, and nothing stored is erased (`startup_kept`).
-/

namespace EltexSystems.ShmChat

open CStr GrowingTable

section Present

variable {ι : Type*}

theorem lockSem_isSome {m m' : Shared} (h : lockSem m = some m') :
    m'.sem.isSome = m.sem.isSome := by
  unfold lockSem at h
  split at h <;> cases h
  · simp_all
  · rfl

theorem clientStep_isSome {segment : Bool} {a : Act} {c c' : Client} {m m' : Shared}
    (h : clientStep segment a c m = some (c', m')) : m'.sem.isSome = m.sem.isSome := by
  cases clientStep_turn h with
  | lock _ hl => exact lockSem_isSome hl
  | unlock _ hm => simp [hm, unlockSem]
  | append p _ _ hm =>
    rw [hm]
    cases p <;> rfl
  | inside _ _ _ _ _ hs => rw [hs]
  | outside _ _ _ hm => rw [hm]

/-- During the startup there is a semaphore once the server has set it. -/
def SemSet (w : World ι) : Prop := w.server.Early ∨ w.mem.sem.isSome = true

theorem SemSet.server {w w' : World ι} {ok : Bool} (hs : w.server ∈ ServerPc.startup)
    (hst : serverStep ok w = some w') : SemSet w' := by
  unfold SemSet
  cases serverStep_move hst with
  | shmget | shmat | memset | running | semget | failed => exact .inl trivial
  | setval => exact .inr rfl
  | getchar hw | stopping hw | shmRmid hw | semRmid hw =>
    rw [hw] at hs
    simp [ServerPc.startup] at hs

variable [DecidableEq ι]

theorem SemSet.step {w w' : World ι} {l : Label ι} (h : SemSet w) (hs : Startup w l)
    (hst : step w l = some w') : SemSet w' := by
  cases l with
  | server ok => exact SemSet.server hs hst
  | client i a =>
    obtain ⟨c, m, hc, rfl⟩ := step_client hst
    exact h.imp_right fun h => (clientStep_isSome hc).trans h

omit [DecidableEq ι] in
theorem present_of_semSet {w : World ι} (hw : WorldInv w) (h : SemSet w) (l : Label ι) :
    Present w l := by
  cases l with
  | server ok => trivial
  | client i a =>
    intro hl hn
    rcases h with he | hsem
    · -- a client that waits already has found the semaphore
      obtain ⟨h1, h2, h3⟩ := hw.fresh he i
      cases a with
      | main ok =>
        rw [show (w.clients i).main = .lock from hl] at h3
        exact h3 hn
      | receiver => cases h1.symm.trans hl
      | sender line => cases h2.symm.trans hl
    · rw [hn] at hsem
      cases hsem

/-- While the server starts every `lock_sem` finds the semaphore. -/
theorem present_of_startup {tr : List (World ι × Label ι)} {w : World ι} (h : shmLts.Run tr w)
    (hs : ∀ p ∈ tr, Startup p.1 p.2) : ∀ p ∈ tr, Present p.1 p.2 := by
  rintro ⟨v, l⟩ hm
  obtain ⟨tr₁, tr₂, -, rfl, ⟨w₀, ⟨names, rfl⟩, hpath⟩, -, -⟩ := h.before hm
  have hinv := hpath.inv_when (I := fun w => WorldInv w ∧ SemSet w) (C := Startup)
    (fun _ _ _ hI hC hst => ⟨hI.1.step hst, hI.2.step hC hst⟩)
    (fun p hp => hs p (List.mem_append_left _ hp)) ⟨.start names, .inl trivial⟩
  exact present_of_semSet hinv.1 hinv.2 l

end Present

section Zeroed

variable {ι : Type*}

/-- The server has zeroed the segment. -/
def ServerPc.Zeroed : ServerPc → Prop
  | .shmget => False
  | .shmat => False
  | .memset => False
  | .failed => False
  | _ => True

theorem ServerPc.zeroed_of_late {s : ServerPc} (h : ¬ s.Early) : s.Zeroed := by
  revert h
  cases s <;> simp [ServerPc.Zeroed, ServerPc.Early]

/-- The server zeroes once, on its way. -/
theorem serverStep_zeroed {w w' : World ι} {ok : Bool} (hst : serverStep ok w = some w') :
    (w.server.Zeroed → w'.server.Zeroed ∨ w'.server = .failed) ∧
      (w'.server.Zeroed → w.server = .memset ∨ w.server.Zeroed) ∧
      (w'.server.Early → w.server.Early) := by
  cases serverStep_move hst with
  | failed hw =>
    refine ⟨fun _ => .inr rfl, False.elim, fun _ => ?_⟩
    rcases hw with hw | hw | hw | hw <;> rw [hw]
    · trivial
    · trivial
    · trivial
    · trivial
  | shmget hw | shmat hw | memset hw | running hw | semget hw | setval hw | getchar hw
  | stopping hw | shmRmid hw | semRmid hw =>
    rw [hw]
    simp [ServerPc.Zeroed, ServerPc.Early]

variable [DecidableEq ι]

theorem not_zeroes {v w : World ι} {tr : List (World ι × Label ι)} (h : shmLts.Path v tr w)
    (hv : v.server.Zeroed ∨ v.server = .failed) : ∀ p ∈ tr, ¬ Zeroes p.1 p.2 := by
  induction h with
  | nil => simp
  | @cons v t w l tr hst _ ih =>
    have hl : ¬ Zeroes v l ∧ (t.server.Zeroed ∨ t.server = .failed) := by
      cases l with
      | server ok =>
        rcases hv with hv | hv
        · refine ⟨fun hz => ?_, (serverStep_zeroed hst).1 hv⟩
          rw [show v.server = .memset from hz] at hv
          exact hv
        · simp [shmLts, step, serverStep, hv] at hst
      | client i a =>
        obtain ⟨c, m, -, rfl⟩ := step_client hst
        exact ⟨id, hv⟩
    intro p hp
    rcases List.mem_cons.mp hp with rfl | hp
    · exact hl.1
    · exact ih hl.2 p hp

theorem zeroes_before {v w : World ι} {tr : List (World ι × Label ι)} (h : shmLts.Path v tr w)
    (hw : w.server.Zeroed) : v.server.Zeroed ∨ ∃ p ∈ tr, Zeroes p.1 p.2 := by
  induction h with
  | nil => exact .inl hw
  | @cons v t w l tr hst _ ih =>
    rcases ih hw with ht | ⟨p, hp, hz⟩
    · cases l with
      | server ok =>
        rcases (serverStep_zeroed hst).2.1 ht with hv | hv
        · exact .inr ⟨_, List.mem_cons_self, hv⟩
        · exact .inl hv
      | client i a =>
        obtain ⟨c, m, -, rfl⟩ := step_client hst
        exact .inl ht
    · exact .inr ⟨p, List.mem_cons_of_mem _ hp, hz⟩

end Zeroed

section Names

variable {ι : Type*}

/-- The main thread has not obtained the lock. -/
def MainPc.Before : MainPc → Prop
  | .shmget => True
  | .shmat => True
  | .semget => True
  | .lock => True
  | _ => False

/-- What a step of a main thread is to its registration. -/
theorem mainStep_registering {ok segment : Bool} {c c' : Client} {m m' : Shared}
    (h : mainStep ok segment c m = some (c', m')) :
    (c.main = .lock ∧ c'.main = .register .test) ∨
      (∃ p, c.main = .register p ∧ ¬ c'.main.Before ∧
        (c'.Registering ↔ p.next MAX_CLIENTS m.chat.client_count ≠ none)) ∨
      (c.main ≠ .lock ∧ ¬ c.Registering ∧ ¬ c'.Registering ∧
        (¬ c.main.Before → ¬ c'.main.Before)) := by
  cases mainStep_move h with
  | lock hm => exact .inl ⟨hm, rfl⟩
  | register p hm hn =>
    refine .inr (.inl ⟨p, hm, ?_⟩)
    simp [hn, MainPc.Before, Client.Registering]
  | registered p hm hn hpc =>
    refine .inr (.inl ⟨p, hm, ?_⟩)
    rcases hpc with rfl | rfl
    · simp [hn, MainPc.Before, Client.Registering]
    · simp [hn, MainPc.Before, Client.Registering]
  | shmget hm hpc | shmat hm hpc =>
    refine .inr (.inr ⟨by simp [hm], by simp [Client.Registering, hm], ?_⟩)
    rcases hpc with rfl | rfl
    · simp [hm, MainPc.Before, Client.Registering]
    · simp [hm, MainPc.Before, Client.Registering]
  | semget hm hpc =>
    refine .inr (.inr ⟨by simp [hm], by simp [Client.Registering, hm], ?_⟩)
    rcases hpc with ⟨rfl, -⟩ | rfl
    · simp [hm, MainPc.Before, Client.Registering]
    · simp [hm, MainPc.Before, Client.Registering]
  | append p hm | appended p hm | unlock hm | create hm | join hm | joinReceiver hm =>
    exact .inr (.inr ⟨by simp [hm], by simp [Client.Registering, hm], by simp [Client.Registering],
      by simp [MainPc.Before]⟩)

/-- The order in which the lock was obtained, beside that in which the registrations ended. -/
structure Order (js rs : List ι) (w : World ι) : Prop where
  pending : ∃ pending, js = rs ++ pending ∧ pending.length ≤ 1 ∧
    ∀ i, i ∈ pending ↔ (w.clients i).Registering
  once : js.Nodup
  past : ∀ i ∈ js, ¬ (w.clients i).main.Before

variable {js rs : List ι} {w w' : World ι}

theorem Order.quiet (h : Order js rs w)
    (hreg : ∀ i, (w'.clients i).Registering ↔ (w.clients i).Registering)
    (hpast : ∀ i, ¬ (w.clients i).main.Before → ¬ (w'.clients i).main.Before) :
    Order js rs w' := by
  obtain ⟨⟨pending, hjs, hlen, hmem⟩, honce, hp⟩ := h
  exact ⟨⟨pending, hjs, hlen, fun i => (hmem i).trans (hreg i).symm⟩, honce,
    fun i hi => hpast i (hp i hi)⟩

theorem inside_of_registering {c : Client} (h : c.Registering) : c.Inside .main := by
  obtain ⟨p, hp⟩ := h
  unfold Client.Inside
  rw [hp]
  trivial

variable [DecidableEq ι] {i : ι} {c : Client} {m : Shared}

/-- A client obtains the lock with nobody registering. -/
theorem Order.join (h : Order js rs w) (hlock : (w.clients i).main = .lock)
    (hc : c.main = .register .test)
    (hx : ∀ j k, World.Inside { w with mem := m, clients := Function.update w.clients i c } j →
      World.Inside { w with mem := m, clients := Function.update w.clients i c } k → j = k) :
    Order (js ++ [i]) rs { w with mem := m, clients := Function.update w.clients i c } := by
  have hself : (Function.update w.clients i c i).Registering := by
    rw [Function.update_self]
    exact ⟨_, hc⟩
  have hnone : ∀ j, ¬ (w.clients j).Registering := fun j hj => by
    have hne : j ≠ i := by
      rintro rfl
      obtain ⟨p, hp⟩ := hj
      rw [hlock] at hp
      cases hp
    refine hne (hx j i ⟨.main, inside_of_registering ?_⟩ ⟨.main, inside_of_registering hself⟩)
    show (Function.update w.clients i c j).Registering
    rwa [Function.update_of_ne hne]
  obtain ⟨⟨pending, rfl, -, hmem⟩, honce, hp⟩ := h
  obtain rfl : pending = [] :=
    List.eq_nil_iff_forall_not_mem.mpr fun j hj => hnone j ((hmem j).mp hj)
  rw [List.append_nil] at honce hp ⊢
  have hi : i ∉ rs := fun hi => hp i hi (by rw [hlock]; trivial)
  refine ⟨⟨[i], rfl, Nat.le_refl 1, fun j => ?_⟩, ?_, fun j hj => ?_⟩
  · rw [List.mem_singleton]
    by_cases hj : j = i
    · subst hj
      exact ⟨fun _ => hself, fun _ => rfl⟩
    · show _ ↔ (Function.update w.clients i c j).Registering
      rw [Function.update_of_ne hj]
      exact ⟨fun h => absurd h hj, fun h => absurd h (hnone j)⟩
  · rw [List.nodup_append]
    exact ⟨honce, List.nodup_singleton i, fun j hj k hk hjk =>
      hi (List.mem_singleton.mp hk ▸ hjk ▸ hj)⟩
  · show ¬ (Function.update w.clients i c j).main.Before
    by_cases hj' : j = i
    · rw [hj', Function.update_self, hc]
      exact id
    · rw [Function.update_of_ne hj']
      exact hp j ((List.mem_append.mp hj).resolve_right fun h => hj' (List.mem_singleton.mp h))

theorem Order.finish (h : Order js rs w) (hreg : (w.clients i).Registering)
    (hc : ¬ c.Registering) (hpast : ¬ c.main.Before) :
    Order js (rs ++ [i]) { w with mem := m, clients := Function.update w.clients i c } := by
  obtain ⟨⟨pending, hjs, hlen, hmem⟩, honce, hp⟩ := h
  obtain rfl : pending = [i] := by
    have hi := (hmem i).mpr hreg
    rcases pending with _ | ⟨k, _ | ⟨k', pending⟩⟩
    · cases hi
    · rw [List.mem_singleton.mp hi]
    · simp only [List.length_cons] at hlen
      omega
  refine ⟨⟨[], by rw [hjs, List.append_nil], Nat.zero_le 1, fun j => ?_⟩, honce, fun j hj => ?_⟩
  · refine ⟨fun hj => absurd hj List.not_mem_nil, fun hj => ?_⟩
    change (Function.update w.clients i c j).Registering at hj
    by_cases hji : j = i
    · rw [hji, Function.update_self] at hj
      exact absurd hj hc
    · rw [Function.update_of_ne hji] at hj
      exact absurd (List.mem_singleton.mp ((hmem j).mpr hj)) hji
  · show ¬ (Function.update w.clients i c j).main.Before
    by_cases hji : j = i
    · rwa [hji, Function.update_self]
    · rw [Function.update_of_ne hji]
      exact hp j hj

theorem Order.stay (h : Order js rs w) (hreg : c.Registering ↔ (w.clients i).Registering)
    (hpast : ¬ (w.clients i).main.Before → ¬ c.main.Before) :
    Order js rs { w with mem := m, clients := Function.update w.clients i c } := by
  have hall : ∀ j, ((Function.update w.clients i c j).Registering ↔ (w.clients j).Registering) ∧
      (¬ (w.clients j).main.Before → ¬ (Function.update w.clients i c j).main.Before) :=
    (Function.forall_update_iff w.clients fun j d => (d.Registering ↔ (w.clients j).Registering) ∧
      (¬ (w.clients j).main.Before → ¬ d.main.Before)).mpr ⟨⟨hreg, hpast⟩, fun _ _ => ⟨Iff.rfl, id⟩⟩
  exact h.quiet (fun j => (hall j).1) fun j => (hall j).2

omit [DecidableEq ι] in
theorem main_frame {segment : Bool} {a : Act} {c c' : Client} {m m' : Shared}
    (hr : a.role ≠ .main) (h : clientStep segment a c m = some (c', m')) : c'.main = c.main := by
  cases a with
  | main ok => exact absurd rfl hr
  | receiver =>
    obtain ⟨_, _, _, _, _, -, rfl⟩ := receiverStep_frame h
    rfl
  | sender line =>
    obtain ⟨_, _, _, -, rfl⟩ := senderStep_frame h
    rfl

omit [DecidableEq ι] in
theorem registered_of_register {ok : Bool} {p : Phase} (h : (w.clients i).main = .register p) :
    registered w (.client i (.main ok)) =
      if p.next MAX_CLIENTS w.mem.chat.client_count = none then [i] else [] := by
  simp only [registered, h]

omit [DecidableEq ι] in
theorem registered_of_not {ok : Bool} (h : ¬ (w.clients i).Registering) :
    registered w (.client i (.main ok)) = [] := by
  cases hm : (w.clients i).main <;> simp_all [registered, Client.Registering]

theorem Order.main {ok : Bool} (h : Order js rs w)
    (hc : mainStep ok w.segment (w.clients i) w.mem = some (c, m))
    (hx : ∀ j k, World.Inside { w with mem := m, clients := Function.update w.clients i c } j →
      World.Inside { w with mem := m, clients := Function.update w.clients i c } k → j = k) :
    Order (js ++ joined w (.client i (.main ok))) (rs ++ registered w (.client i (.main ok)))
      { w with mem := m, clients := Function.update w.clients i c } := by
  rcases mainStep_registering hc with ⟨hlock, hc'⟩ | ⟨p, hp, hpast, hreg⟩ | ⟨hlock, hno, hc', hpast⟩
  · rw [joined, if_pos hlock, registered, hlock, List.append_nil]
    exact h.join hlock hc' hx
  · have hj : joined w (.client i (.main ok)) = [] := if_neg (by rw [hp]; simp)
    rw [hj, List.append_nil, registered_of_register hp]
    have hri : (w.clients i).Registering := ⟨p, hp⟩
    by_cases hn : p.next MAX_CLIENTS w.mem.chat.client_count = none
    · rw [if_pos hn]
      exact h.finish hri (fun hr => hreg.mp hr hn) hpast
    · rw [if_neg hn, List.append_nil]
      exact h.stay ⟨fun _ => hri, fun _ => hreg.mpr hn⟩ fun _ => hpast
  · rw [joined, if_neg hlock, registered_of_not hno, List.append_nil, List.append_nil]
    exact h.stay ⟨fun h => absurd h hc', fun h => absurd h hno⟩ hpast

/-- A step of a state that excludes after it, to the two orders. -/
theorem Order.step {l : Label ι} (h : Order js rs w) (hst : step w l = some w')
    (hx : ∀ i j, w'.Inside i → w'.Inside j → i = j) :
    Order (js ++ joined w l) (rs ++ registered w l) w' := by
  cases l with
  | server ok =>
    have hcl := (serverStep_tables hst).1
    show Order (js ++ []) (rs ++ []) w'
    rw [List.append_nil, List.append_nil]
    exact h.quiet (fun i => by rw [hcl]) fun i hi => by rwa [hcl]
  | client i a =>
    obtain ⟨c, m, hc, rfl⟩ := step_client hst
    by_cases hr : a.role = .main
    · cases a with
      | main ok => exact h.main hc hx
      | receiver => cases hr
      | sender line => cases hr
    · have hmain := main_frame hr hc
      have hquiet : joined w (.client i a) = [] ∧ registered w (.client i a) = [] := by
        cases a with
        | main ok => exact absurd rfl hr
        | receiver => exact ⟨rfl, rfl⟩
        | sender line => exact ⟨rfl, rfl⟩
      rw [hquiet.1, hquiet.2, List.append_nil, List.append_nil]
      exact h.stay (by unfold Client.Registering; rw [hmain]) fun hi => by rwa [hmain]

theorem Order.path {tr : List (World ι × Label ι)} (hpath : shmLts.Path w tr w')
    (hx : ∀ v ∈ Lts.visited tr w', ∀ i j, v.Inside i → v.Inside j → i = j) (h : Order js rs w) :
    Order (js ++ tr.flatMap fun p => joined p.1 p.2) (rs ++ tr.flatMap fun p => registered p.1 p.2)
      w' := by
  induction hpath generalizing js rs with
  | nil =>
    rw [List.flatMap_nil, List.flatMap_nil, List.append_nil, List.append_nil]
    exact h
  | cons hst hp ih =>
    have hx' := fun v hv => hx v (List.mem_cons_of_mem _ hv)
    rw [List.flatMap_cons, List.flatMap_cons, ← List.append_assoc, ← List.append_assoc]
    exact ih hx' (h.step hst (hx' _ hp.mem_visited))

end Names

section Stored

variable {ι : Type*} {w w' : World ι}

/-- What holds of the names from the start on. -/
structure Named (w : World ι) : Prop where
  log : LogInv w
  world : WorldInv w
  early : w.server.Early → w.mem.chat.client_count = 0

theorem Named.start (names : ι → CharArray NAME_LEN) : Named (World.start names) :=
  ⟨.start names, .start names, fun _ => rfl⟩

theorem Named.stored_take (h : Named w) :
    (w.mem.chat.names.stored ++ []).take MAX_CLIENTS = w.mem.chat.names.stored := by
  rw [List.append_nil]
  exact List.take_of_length_le ((length_stored _).trans_le h.log.client_count)

theorem names_server {ok : Bool} (h : Named w) (hst : serverStep ok w = some w') :
    (w'.server.Early → w'.mem.chat.client_count = 0) ∧
      w.mem.chat.names.Grows w'.mem.chat.names ∧
      w'.mem.chat.names.stored = w.mem.chat.names.stored := by
  obtain ⟨-, ⟨hn, -⟩ | ⟨he, -, hn⟩⟩ := serverStep_tables hst
  · have hcount : w'.mem.chat.client_count = w.mem.chat.client_count :=
      congrArg GrowingTable.count hn
    refine ⟨fun he => hcount.trans (h.early ((serverStep_zeroed hst).2.2 he)), ?_, by rw [hn]⟩
    rw [hn]
    exact .refl _
  · have hcount : w.mem.chat.names.count = 0 := h.early he
    have hcount' : w'.mem.chat.names.count = 0 := hn
    refine ⟨fun _ => hn, ⟨by omega, fun k hk => by omega⟩, ?_⟩
    unfold stored
    rw [hcount, hcount']
    rfl

theorem names_quiet {segment : Bool} {a : Act} {c c' : Client} {m m' : Shared}
    (h : clientStep segment a c m = some (c', m')) (hn : a.role = .main → ¬ c.Registering) :
    m'.chat.names = m.chat.names := by
  cases clientStep_fills h with
  | register p hr hreg =>
    refine absurd ?_ (hn hr)
    cases hm : c.main <;> simp_all [Client.registering, Client.Registering]
  | append p _ hm => rw [hm, names_appendMessage]
  | neither hchat => rw [hchat]

variable {i : ι} {c : Client} {m : Shared}

/-- A main thread's step appends its name to the names where it ends the registration with room. -/
theorem names_main {ok : Bool} (h : Named w)
    (hc : mainStep ok w.segment (w.clients i) w.mem = some (c, m)) :
    w.mem.chat.names.Grows m.chat.names ∧ m.chat.names.stored = (w.mem.chat.names.stored ++
      (registered w (.client i (.main ok))).map fun i => (w.clients i).printed).take
        MAX_CLIENTS := by
  by_cases hreg : (w.clients i).Registering
  · obtain ⟨p, hp⟩ := hreg
    have hm : m = registerName (w.clients i).name p w.mem := by
      unfold mainStep at hc
      rw [hp] at hc
      exact (congrArg Prod.snd (Option.some.inj hc)).symm
    have hroom := h.log.registering i p (by unfold Client.registering; rw [hp])
    rw [registered_of_register hp, hm, names_registerName]
    refine ⟨hroom.grows, ?_⟩
    rcases hn : p.next MAX_CLIENTS w.mem.chat.client_count with _ | q
    · rw [if_pos rfl]
      exact hroom.stored_end h.log.client_count hn
    · rw [if_neg (Option.some_ne_none q), List.map_nil, h.stored_take]
      exact hroom.stored_on hn
  · have hn := names_quiet (a := .main ok) hc fun _ => hreg
    rw [hn, registered_of_not hreg, List.map_nil, h.stored_take]
    exact ⟨.refl _, rfl⟩

variable [DecidableEq ι]

theorem Named.step {l : Label ι} (h : Named w) (hx : Exclusive w) (hst : step w l = some w') :
    Named w' ∧ w.mem.chat.names.Grows w'.mem.chat.names ∧
      w'.mem.chat.names.stored = (w.mem.chat.names.stored ++
        (registered w l).map fun i => (w.clients i).printed).take MAX_CLIENTS := by
  obtain ⟨⟨hworld, hlog⟩, -⟩ := (Logged.mk h.world h.log).step hx hst
  cases l with
  | server ok =>
    obtain ⟨hearly, hgrows, hstored⟩ := names_server h hst
    exact ⟨⟨hlog, hworld, hearly⟩, hgrows, hstored.trans h.stored_take.symm⟩
  | client i a =>
    obtain ⟨c, m, hc, rfl⟩ := step_client hst
    have hearly : w.server.Early → m.chat.client_count = 0 := fun he => by
      rw [((h.world.fresh he i).step (sem_of_early h.world he) hc).2]
      exact h.early he
    refine ⟨⟨hlog, hworld, hearly⟩, ?_⟩
    cases a with
    | main ok => exact names_main h hc
    | receiver =>
      have hn := names_quiet hc fun hr => by cases hr
      exact ⟨hn ▸ .refl _, (congrArg stored hn).trans h.stored_take.symm⟩
    | sender line =>
      have hn := names_quiet hc fun hr => by cases hr
      exact ⟨hn ▸ .refl _, (congrArg stored hn).trans h.stored_take.symm⟩

theorem printed_step {l : Label ι} (hst : step w l = some w') (i : ι) :
    (w'.clients i).printed = (w.clients i).printed := by
  cases l with
  | server ok => rw [(serverStep_tables hst).1]
  | client j a =>
    obtain ⟨c, m, hc, rfl⟩ := step_client hst
    show (Function.update w.clients j c i).printed = _
    by_cases hi : i = j
    · rw [hi, Function.update_self, Client.printed, (clientStep_message hc).1]
      rfl
    · rw [Function.update_of_ne hi]

/-- Along a path through states that exclude the names grow, by those of the registrations that
end. -/
theorem Named.path {tr : List (World ι × Label ι)} (hpath : shmLts.Path w tr w')
    (hx : ∀ p ∈ tr, Exclusive p.1) (h : Named w) :
    Named w' ∧ w.mem.chat.names.Grows w'.mem.chat.names ∧
      w'.mem.chat.names.stored = (w.mem.chat.names.stored ++
        (tr.flatMap fun p => registered p.1 p.2).map fun i => (w'.clients i).printed).take
          MAX_CLIENTS ∧
      ∀ i, (w'.clients i).printed = (w.clients i).printed := by
  induction hpath with
  | nil =>
    refine ⟨h, .refl _, ?_, fun _ => rfl⟩
    exact h.stored_take.symm
  | cons hst _ ih =>
    obtain ⟨hn, hgrows, hstored⟩ := h.step (hx _ List.mem_cons_self) hst
    obtain ⟨ihn, ihg, ihs, ihp⟩ := ih (fun q hq => hx q (List.mem_cons_of_mem _ hq)) hn
    have hp := fun i => (ihp i).trans (printed_step hst i)
    refine ⟨ihn, hgrows.trans ihg, ihs.trans ?_, hp⟩
    rw [hstored, List.flatMap_cons, List.map_append, ← List.append_assoc, take_take_append]
    simp only [hp]

end Stored

section Run

variable {ι : Type*} [DecidableEq ι]

/-- Before a client's critical section the segment has been zeroed, and it is not after it. -/
theorem zeroed_around {tr₁ tr₂ : List (World ι × Label ι)} {v w : World ι} {i : ι} {ok : Bool}
    (h : shmLts.Run (tr₁ ++ (v, .client i (.main ok)) :: tr₂) w)
    (hin : (v.clients i).Inside .main) :
    (∃ p ∈ tr₁, Zeroes p.1 p.2) ∧ ∀ p ∈ tr₂, ¬ Zeroes p.1 p.2 := by
  obtain ⟨t, ⟨w₀, ⟨names, rfl⟩, h₁⟩, hst, h₂⟩ := h.through
  have hv : v.server.Zeroed := by
    have hworld : WorldInv v := h₁.inv (fun _ _ _ => WorldInv.step) (.start names)
    exact ServerPc.zeroed_of_late fun he => (hworld.fresh he i).not_inside _ hin
  have ht : t.server = v.server := by
    obtain ⟨c, m, -, rfl⟩ := step_client hst
    rfl
  refine ⟨(zeroes_before h₁ hv).resolve_left id, not_zeroes h₂ ?_⟩
  rw [ht]
  exact .inl hv

/-- Started with neither segment nor semaphore, in whatever order the steps of the server's startup
and of the clients come, no client is in its critical section before the segment is zeroed, nothing
stored is erased, the lock excludes, and the names are those of the first ten clients to obtain
it. -/
theorem startup_kept {tr : List (World ι × Label ι)} {w : World ι} (h : shmLts.Run tr w)
    (hs : ∀ p ∈ tr, Startup p.1 p.2) : Started tr w := by
  have hp := present_of_startup h hs
  have hx := exclusive_of_present h hp
  have hinside := (inside_iff h).mpr fun p hm => (hp p hm).clear
  have hrun := h
  obtain ⟨w₀, ⟨names, rfl⟩, hpath⟩ := h
  have horder : Order [] [] (World.start names) :=
    ⟨⟨[], rfl, Nat.zero_le 1, fun i => ⟨fun hi => absurd hi List.not_mem_nil, fun hi => by
      obtain ⟨_, hq⟩ := hi
      cases hq⟩⟩, List.nodup_nil, fun _ hi => absurd hi List.not_mem_nil⟩
  have hjoins := horder.path hpath hinside
  rw [List.nil_append, List.nil_append] at hjoins
  obtain ⟨-, -, hstored, -⟩ := (Named.start names).path hpath hx
  refine
    { zeroed := ?_
      kept := ?_
      alone := fun i j hi hj =>
        hinside w (List.mem_append_right _ (List.mem_singleton_self w)) i j ⟨_, hi⟩ ⟨_, hj⟩
      once := hjoins.once
      names := ?_ }
  · rintro tr₁ tr₂ v i ok rfl hin
    exact zeroed_around hrun hin
  · rintro tr₁ tr₂ v rfl ⟨w₁, ⟨names₁, rfl⟩, h₁⟩ h₂
    have hx₁ := fun p hm => hx p (List.mem_append_left _ hm)
    have hx₂ := fun p hm => hx p (List.mem_append_right _ hm)
    have hv := ((Named.start names₁).path h₁ hx₁).1
    exact ⟨(hv.path h₂ hx₂).2.1, ((Logged.mk hv.world hv.log).path h₂ hx₂).2.1⟩
  · obtain ⟨pending, hjs, hlen, hmem⟩ := hjoins.pending
    exact ⟨_, pending, hjs, hlen, hmem, hstored⟩

/-- The server starts, one client joining before the other. -/
theorem startup_kept_two : ∃ (tr : _) (w : World Bool), shmLts.Run tr w ∧
    (tr.flatMap fun p => joined p.1 p.2) = [false, true] ∧ Started tr w := by
  have h : (Lts.exec step (World.start fun _ => ann) chatLabels).isSome = true := by decide
  have hjoins : (Lts.trace step (World.start fun _ => ann) chatLabels).flatMap
      (fun p => joined p.1 p.2) = [false, true] := by
    decide
  have hserver : ∀ p ∈ Lts.trace step (World.start fun _ => ann) chatLabels,
      p.2.ofServer = true → p.1.server ∈ ServerPc.startup := by
    decide
  obtain ⟨w, hw⟩ := Option.isSome_iff_exists.mp h
  have hrun : shmLts.Run _ w := ⟨_, ⟨_, rfl⟩, Lts.exec_path (fun _ _ _ => id) hw⟩
  refine ⟨_, w, hrun, hjoins, startup_kept hrun ?_⟩
  rintro ⟨v, l⟩ hp
  cases l with
  | server ok => exact hserver _ hp rfl
  | client i a => trivial

end Run

end EltexSystems.ShmChat
