import EltexSystems.ShmChat

/-!
# Mutual exclusion in the shared memory chat

The threads and the semaphore move as those of a lock whose semaphore may be removed (`lock_step`),
so at most one process is inside as long as no `lock_sem` fails while another is (`inside_iff`).
Then the slots written are those below `message_count`, with the one whose count is still to come
(`AppendInv.step`), and no slot is written twice and no increment lost (`lock_excludes_iff`).
-/

namespace EltexSystems.ShmChat

open CStr

section Threads

/-- The thread's `unlock_sem` is what it does next. -/
def Client.Unlocking (c : Client) : Role → Prop
  | .main => c.main = .unlock
  | .receiver => c.receiver = .unlock
  | .sender => c.sender = .unlock

instance (c : Client) : ∀ r, Decidable (c.Locking r)
  | .main => inferInstanceAs (Decidable (c.main = .lock))
  | .receiver => inferInstanceAs (Decidable (c.receiver = .lock))
  | .sender => inferInstanceAs (Decidable (c.sender = .lock))

instance (c : Client) : ∀ r, Decidable (c.Unlocking r)
  | .main => inferInstanceAs (Decidable (c.main = .unlock))
  | .receiver => inferInstanceAs (Decidable (c.receiver = .unlock))
  | .sender => inferInstanceAs (Decidable (c.sender = .unlock))

/-- Where a thread is in appending a message. -/
def Client.appending (c : Client) : Role → Option Phase
  | .main =>
    match c.main with
    | .append p => some p
    | _ => none
  | .receiver => none
  | .sender =>
    match c.sender with
    | .append p => some p
    | _ => none

theorem Client.inside_of_appending {c : Client} {r : Role} {p : Phase}
    (h : c.appending r = some p) : c.Inside r ∧ ¬ c.Unlocking r := by
  cases r with
  | main => cases hm : c.main <;> simp_all [Client.appending, Client.Inside, Client.Unlocking]
  | receiver => cases h
  | sender => cases hs : c.sender <;> simp_all [Client.appending, Client.Inside, Client.Unlocking]

theorem Client.appending_eq_none {c : Client} {r : Role} (h : ¬ c.Inside r) :
    c.appending r = none := by
  by_contra hne
  obtain ⟨p, hp⟩ := Option.ne_none_iff_exists'.mp hne
  exact h (Client.inside_of_appending hp).1

theorem Client.Unlocking.appending {c : Client} {r : Role} (h : c.Unlocking r) :
    c.appending r = none := by
  by_contra hne
  obtain ⟨p, hp⟩ := Option.ne_none_iff_exists'.mp hne
  exact (Client.inside_of_appending hp).2 h

/-- The main thread has created the others or has left. -/
def MainPc.Spawned : MainPc → Prop
  | .join => True
  | .joinReceiver => True
  | .exited => True
  | _ => False

/-- The other threads run only once they are created. -/
def Client.Wf (c : Client) : Prop := ¬ c.main.Spawned → c.receiver = .off ∧ c.sender = .off

/-- What a thread's step is to the lock and to the messages. -/
inductive Turn (r : Role) (c c' : Client) (m m' : Shared) : Prop where
  | lock : c.Locking r → lockSem m = some m' → c'.Inside r →
      c'.appending r = none ∨ c'.appending r = some .test → Turn r c c' m m'
  | unlock : c.Unlocking r → m' = unlockSem m → ¬ c'.Inside r → Turn r c c' m m'
  | append (p : Phase) (msg : ChatMessage) : c.appending r = some p →
      m' = appendMessage msg p m →
      c'.appending r = p.next MAX_MESSAGES m.chat.message_count → c'.Inside r →
      Turn r c c' m m'
  | inside : c.Inside r → ¬ c.Unlocking r → c.appending r = none → c'.Inside r →
      c'.appending r = none ∨ c'.appending r = some .test → m'.sem = m.sem →
      m'.writes = m.writes → m'.chat.message_count = m.chat.message_count →
      m'.increments = m.increments → Turn r c c' m m'
  | outside : ¬ c.Inside r → ¬ c.Locking r → ¬ c'.Inside r → m' = m → Turn r c c' m m'

variable {segment : Bool} {a : Act} {c c' : Client} {m m' : Shared}

section Moves

/-- A step of the main thread, by where the thread is. -/
inductive MainMove (c : Client) (m : Shared) : Client → Shared → Prop where
  | shmget {pc : MainPc} : c.main = .shmget → pc = .shmat ∨ pc = .exited →
      MainMove c m { c with main := pc } m
  | shmat {pc : MainPc} : c.main = .shmat → pc = .semget ∨ pc = .exited →
      MainMove c m { c with main := pc } m
  | semget {pc : MainPc} : c.main = .semget → pc = .lock ∧ m.sem ≠ none ∨ pc = .exited →
      MainMove c m { c with main := pc } m
  | lock {m' : Shared} : c.main = .lock → lockSem m = some m' →
      MainMove c m { c with main := .register .test } m'
  | register (p : Phase) {q : Phase} : c.main = .register p →
      p.next MAX_CLIENTS m.chat.client_count = some q →
      MainMove c m { c with main := .register q } (registerName c.name p m)
  | registered (p : Phase) {pc : MainPc} : c.main = .register p →
      p.next MAX_CLIENTS m.chat.client_count = none → pc = .unlock ∨ pc = .append .test →
      MainMove c m { c with main := pc } (registerName c.name p m)
  | append (p : Phase) {q : Phase} : c.main = .append p →
      p.next MAX_MESSAGES m.chat.message_count = some q →
      MainMove c m { c with main := .append q } (appendMessage (joinMessage c) p m)
  | appended (p : Phase) : c.main = .append p →
      p.next MAX_MESSAGES m.chat.message_count = none →
      MainMove c m { c with main := .unlock } (appendMessage (joinMessage c) p m)
  | unlock : c.main = .unlock → MainMove c m { c with main := .create } (unlockSem m)
  | create : c.main = .create →
      MainMove c m { c with main := .join, receiver := .top, sender := .top } m
  | join : c.main = .join → c.sender = .off →
      MainMove c m { c with main := .joinReceiver, running := false } m
  | joinReceiver : c.main = .joinReceiver → c.receiver = .off →
      MainMove c m { c with main := .exited } m

theorem mainStep_move {ok : Bool} (h : mainStep ok segment c m = some (c', m')) :
    MainMove c m c' m' := by
  unfold mainStep at h
  rcases hm : c.main with _ | _ | _ | _ | p | p | _ | _ | _ | _ | _ <;> rw [hm] at h <;>
    simp only [] at h
  case shmget =>
    cases h
    exact .shmget hm (ite_eq_or_eq _ _ _)
  case shmat =>
    cases h
    exact .shmat hm (ite_eq_or_eq _ _ _)
  case semget =>
    cases h
    refine .semget hm ?_
    split_ifs with hs
    · rw [Bool.and_eq_true] at hs
      exact .inl ⟨rfl, Option.isSome_iff_ne_none.mp hs.2⟩
    · exact .inr rfl
  case lock =>
    obtain ⟨m₁, hl, h⟩ := Option.map_eq_some_iff.mp h
    cases h
    exact .lock hm hl
  case register =>
    cases h
    rcases hn : p.next MAX_CLIENTS m.chat.client_count with _ | q
    · exact .registered p hm hn (ite_eq_or_eq _ _ _)
    · exact .register p hm hn
  case append =>
    cases h
    rcases hn : p.next MAX_MESSAGES m.chat.message_count with _ | q
    · exact .appended p hm hn
    · exact .append p hm hn
  case unlock =>
    cases h
    exact .unlock hm
  case create =>
    cases h
    exact .create hm
  case join =>
    split_ifs at h with hoff
    cases h
    exact .join hm hoff
  case joinReceiver =>
    split_ifs at h with hoff
    cases h
    exact .joinReceiver hm hoff
  case exited => cases h

/-- A step of the receiver. -/
inductive ReceiverMove (c : Client) (m : Shared) : Client → Shared → Prop where
  | top {pc : ReceiverPc} : c.receiver = .top → pc = .lock ∨ pc = .off →
      ReceiverMove c m { c with receiver := pc } m
  | lock {m' : Shared} : c.receiver = .lock → lockSem m = some m' →
      ReceiverMove c m { c with receiver := .total } m'
  | total : c.receiver = .total →
      ReceiverMove c m { c with receiver := .show, total := m.chat.message_count } m
  | «show» : c.receiver = .show → c.last_seen < c.total ∧ c.last_seen < MAX_MESSAGES →
      ReceiverMove c m { c with
        receiver := .show
        shown := c.shown ++ [m.chat.messages c.last_seen]
        last_seen := c.last_seen + 1 } m
  | shown : c.receiver = .show → ¬ (c.last_seen < c.total ∧ c.last_seen < MAX_MESSAGES) →
      ReceiverMove c m { c with receiver := .names } m
  | names : c.receiver = .names →
      ReceiverMove c m { c with
        receiver := .unlock
        users := (List.range (min m.chat.client_count MAX_CLIENTS)).map m.chat.client_names } m
  | unlock : c.receiver = .unlock → ReceiverMove c m { c with receiver := .top } (unlockSem m)

theorem receiverStep_move (h : receiverStep c m = some (c', m')) : ReceiverMove c m c' m' := by
  unfold receiverStep at h
  rcases hm : c.receiver with _ | _ | _ | _ | _ | _ | _ <;> rw [hm] at h <;> simp only [] at h
  case off => cases h
  case top =>
    cases h
    exact .top hm (ite_eq_or_eq _ _ _)
  case lock =>
    obtain ⟨m₁, hl, h⟩ := Option.map_eq_some_iff.mp h
    cases h
    exact .lock hm hl
  case total =>
    cases h
    exact .total hm
  case «show» =>
    split_ifs at h with hlt <;> cases h
    · exact .show hm hlt
    · exact .shown hm hlt
  case names =>
    cases h
    exact .names hm
  case unlock =>
    cases h
    exact .unlock hm

/-- A step of the sender. -/
inductive SenderMove (line : CharArray TEXT_LEN) (c : Client) (m : Shared) :
    Client → Shared → Prop where
  | top {pc : SenderPc} : c.sender = .top → pc = .getnstr ∨ pc = .off →
      SenderMove line c m { c with sender := pc } m
  | quit : c.sender = .getnstr → line.text = ascii "/quit" →
      SenderMove line c m { c with sender := .off, running := false } m
  | empty : c.sender = .getnstr → line.text = [] → SenderMove line c m { c with sender := .top } m
  | line : c.sender = .getnstr → line.text ≠ ascii "/quit" → line.text ≠ [] →
      SenderMove line c m { c with sender := .lock, buf := line } m
  | lock {m' : Shared} : c.sender = .lock → lockSem m = some m' →
      SenderMove line c m { c with sender := .append .test } m'
  | append (p : Phase) {q : Phase} : c.sender = .append p →
      p.next MAX_MESSAGES m.chat.message_count = some q →
      SenderMove line c m { c with sender := .append q } (appendMessage (lineMessage c) p m)
  | appended (p : Phase) : c.sender = .append p →
      p.next MAX_MESSAGES m.chat.message_count = none →
      SenderMove line c m { c with sender := .unlock } (appendMessage (lineMessage c) p m)
  | unlock : c.sender = .unlock → SenderMove line c m { c with sender := .top } (unlockSem m)

theorem senderStep_move {line : CharArray TEXT_LEN} (h : senderStep line c m = some (c', m')) :
    SenderMove line c m c' m' := by
  unfold senderStep at h
  rcases hm : c.sender with _ | _ | _ | _ | p | _ <;> rw [hm] at h <;> simp only [] at h
  case off => cases h
  case top =>
    cases h
    exact .top hm (ite_eq_or_eq _ _ _)
  case getnstr =>
    split_ifs at h with hquit hempty <;> cases h
    · exact .quit hm hquit
    · exact .empty hm hempty
    · exact .line hm hquit hempty
  case lock =>
    obtain ⟨m₁, hl, h⟩ := Option.map_eq_some_iff.mp h
    cases h
    exact .lock hm hl
  case append =>
    cases h
    rcases hn : p.next MAX_MESSAGES m.chat.message_count with _ | q
    · exact .appended p hm hn
    · exact .append p hm hn
  case unlock =>
    cases h
    exact .unlock hm

end Moves

theorem registerName_eq (name : CharArray NAME_LEN) (p : Phase) (m : Shared) :
    (registerName name p m).sem = m.sem ∧ (registerName name p m).writes = m.writes ∧
      (registerName name p m).chat.message_count = m.chat.message_count ∧
      (registerName name p m).increments = m.increments := by
  cases p <;> exact ⟨rfl, rfl, rfl, rfl⟩

theorem mainStep_turn {ok : Bool} (h : mainStep ok segment c m = some (c', m')) :
    Turn .main c c' m m' := by
  cases mainStep_move h with
  | shmget hm hpc | shmat hm hpc =>
    refine .outside (by simp [Client.Inside, hm]) (by simp [Client.Locking, hm]) ?_ rfl
    rcases hpc with rfl | rfl
    · exact id
    · exact id
  | semget hm hpc =>
    refine .outside (by simp [Client.Inside, hm]) (by simp [Client.Locking, hm]) ?_ rfl
    rcases hpc with ⟨rfl, -⟩ | rfl
    · exact id
    · exact id
  | lock hm hl => exact .lock hm hl trivial (.inl rfl)
  | register p hm =>
    obtain ⟨h1, h2, h3, h4⟩ := registerName_eq c.name p m
    exact .inside (by simp [Client.Inside, hm]) (by simp [Client.Unlocking, hm])
      (by simp [Client.appending, hm]) trivial (.inl rfl) h1 h2 h3 h4
  | registered p hm _ hpc =>
    obtain ⟨h1, h2, h3, h4⟩ := registerName_eq c.name p m
    have hin : c.Inside .main := by simp [Client.Inside, hm]
    have hun : ¬ c.Unlocking .main := by simp [Client.Unlocking, hm]
    have hap : c.appending .main = none := by simp [Client.appending, hm]
    rcases hpc with rfl | rfl
    · exact .inside hin hun hap trivial (.inl rfl) h1 h2 h3 h4
    · exact .inside hin hun hap trivial (.inr rfl) h1 h2 h3 h4
  | append p hm hn | appended p hm hn =>
    exact .append p _ (by simp [Client.appending, hm]) rfl hn.symm trivial
  | unlock hm => exact .unlock hm rfl id
  | create hm | join hm | joinReceiver hm =>
    exact .outside (by simp [Client.Inside, hm]) (by simp [Client.Locking, hm]) id rfl

theorem receiverStep_turn (h : receiverStep c m = some (c', m')) : Turn .receiver c c' m m' := by
  cases receiverStep_move h with
  | top hm hpc =>
    refine .outside (by simp [Client.Inside, hm]) (by simp [Client.Locking, hm]) ?_ rfl
    rcases hpc with rfl | rfl
    · exact id
    · exact id
  | lock hm hl => exact .lock hm hl trivial (.inl rfl)
  | total hm | «show» hm | shown hm | names hm =>
    exact .inside (by simp [Client.Inside, hm]) (by simp [Client.Unlocking, hm]) rfl trivial
      (.inl rfl) rfl rfl rfl rfl
  | unlock hm => exact .unlock hm rfl id

theorem senderStep_turn {line : CharArray TEXT_LEN} (h : senderStep line c m = some (c', m')) :
    Turn .sender c c' m m' := by
  cases senderStep_move h with
  | top hm hpc =>
    refine .outside (by simp [Client.Inside, hm]) (by simp [Client.Locking, hm]) ?_ rfl
    rcases hpc with rfl | rfl
    · exact id
    · exact id
  | quit hm | empty hm | line hm =>
    exact .outside (by simp [Client.Inside, hm]) (by simp [Client.Locking, hm]) id rfl
  | lock hm hl => exact .lock hm hl trivial (.inr rfl)
  | append p hm hn | appended p hm hn =>
    exact .append p _ (by simp [Client.appending, hm]) rfl hn.symm trivial
  | unlock hm => exact .unlock hm rfl id

theorem clientStep_turn (h : clientStep segment a c m = some (c', m')) :
    Turn a.role c c' m m' := by
  cases a with
  | main ok => exact mainStep_turn h
  | receiver => exact receiverStep_turn h
  | sender line => exact senderStep_turn h

/-- What another thread's step leaves of a thread. -/
structure Frame (r : Role) (c c' : Client) : Prop where
  inside : c'.Inside r ↔ c.Inside r
  appending : c'.appending r = c.appending r

/-- What a main thread leaves of its client, and that it creates the other threads once. -/
theorem mainStep_frame {ok : Bool} (h : mainStep ok segment c m = some (c', m')) :
    ∃ run pc rcv snd,
      c' = { c with running := run, main := pc, receiver := rcv, sender := snd } ∧
      ((rcv = c.receiver ∧ snd = c.sender ∧ (c.main.Spawned → pc.Spawned)) ∨
        (c.main = .create ∧ rcv = .top ∧ snd = .top ∧ pc = .join)) := by
  cases mainStep_move h with
  | create hm => exact ⟨_, _, _, _, rfl, .inr ⟨hm, rfl, rfl, rfl⟩⟩
  | join | joinReceiver => exact ⟨_, _, _, _, rfl, .inl ⟨rfl, rfl, fun _ => trivial⟩⟩
  | shmget hm | shmat hm | semget hm | lock hm | register p hm | registered p hm | append p hm
  | appended p hm | unlock hm =>
    exact ⟨_, _, _, _, rfl, .inl ⟨rfl, rfl, fun hs => by rw [hm] at hs; exact hs.elim⟩⟩

theorem receiverStep_frame (h : receiverStep c m = some (c', m')) :
    ∃ pc seen total shown users, c.receiver ≠ .off ∧
      c' = { c with
        receiver := pc, last_seen := seen, total := total, shown := shown, users := users } := by
  cases receiverStep_move h with
  | top hm | lock hm | total hm | «show» hm | shown hm | names hm | unlock hm =>
    refine ⟨_, _, _, _, _, ?_, rfl⟩
    rw [hm]
    exact ReceiverPc.noConfusion

theorem senderStep_frame {line : CharArray TEXT_LEN} (h : senderStep line c m = some (c', m')) :
    ∃ run pc buf, c.sender ≠ .off ∧ c' = { c with running := run, sender := pc, buf := buf } := by
  cases senderStep_move h with
  | top hm | quit hm | empty hm | line hm | lock hm | append p hm | appended p hm | unlock hm =>
    refine ⟨_, _, _, ?_, rfl⟩
    rw [hm]
    exact SenderPc.noConfusion

theorem frame_of_pc (hm : c'.main = c.main) : Frame .main c c' :=
  ⟨by unfold Client.Inside; rw [hm], by unfold Client.appending; rw [hm]⟩

theorem frame_of_receiver (hr : c'.receiver = c.receiver) : Frame .receiver c c' :=
  ⟨by unfold Client.Inside; rw [hr], rfl⟩

theorem frame_of_sender (hs : c'.sender = c.sender) : Frame .sender c c' :=
  ⟨by unfold Client.Inside; rw [hs], by unfold Client.appending; rw [hs]⟩

theorem clientStep_frame (hw : c.Wf) (h : clientStep segment a c m = some (c', m')) :
    ∀ r, r ≠ a.role → Frame r c c' := by
  intro r hr
  cases a with
  | main ok =>
    obtain ⟨_, _, _, _, rfl, ⟨h1, h2, -⟩ | ⟨hm, h1, h2, -⟩⟩ := mainStep_frame h
    · cases r with
      | main => exact absurd rfl hr
      | receiver => exact frame_of_receiver h1
      | sender => exact frame_of_sender h2
    · obtain ⟨ho1, ho2⟩ := hw (by simp [hm, MainPc.Spawned])
      cases r with
      | main => exact absurd rfl hr
      | receiver => exact ⟨by simp [Client.Inside, h1, ho1], rfl⟩
      | sender => exact ⟨by simp [Client.Inside, h2, ho2], by simp [Client.appending, h2, ho2]⟩
  | receiver =>
    obtain ⟨_, _, _, _, _, -, rfl⟩ := receiverStep_frame h
    cases r with
    | main => exact frame_of_pc rfl
    | receiver => exact absurd rfl hr
    | sender => exact frame_of_sender rfl
  | sender line =>
    obtain ⟨_, _, _, -, rfl⟩ := senderStep_frame h
    cases r with
    | main => exact frame_of_pc rfl
    | receiver => exact frame_of_receiver rfl
    | sender => exact absurd rfl hr

theorem wf_clientStep (hw : c.Wf) (h : clientStep segment a c m = some (c', m')) : c'.Wf := by
  intro hns
  cases a with
  | main ok =>
    obtain ⟨_, _, _, _, rfl, ⟨h1, h2, h3⟩ | ⟨-, -, -, hm⟩⟩ := mainStep_frame h
    · obtain ⟨ho1, ho2⟩ := hw fun hs => hns (h3 hs)
      exact ⟨h1.trans ho1, h2.trans ho2⟩
    · exact absurd (hm ▸ trivial) hns
  | receiver =>
    obtain ⟨_, _, _, _, _, hon, rfl⟩ := receiverStep_frame h
    exact absurd (hw hns).1 hon
  | sender line =>
    obtain ⟨_, _, _, hon, rfl⟩ := senderStep_frame h
    exact absurd (hw hns).2 hon

end Threads

section Startup

/-- The server has not set the semaphore to 1. -/
def ServerPc.Early : ServerPc → Prop
  | .getchar => False
  | .stopping => False
  | .shmRmid => False
  | .semRmid => False
  | .exited => False
  | _ => True

/-- What the semaphore can be where the server is. -/
def ServerPc.Sem (sem : Option ℕ) : ServerPc → Prop
  | .setval => sem = some 0
  | .failed => sem = none ∨ sem = some 0
  | .getchar => True
  | .stopping => True
  | .shmRmid => True
  | .semRmid => True
  | .exited => True
  | _ => sem = none

/-- A client that has not taken the lock yet, and waits for it only if there is a semaphore. -/
def Client.Fresh (sem : Option ℕ) (c : Client) : Prop :=
  c.receiver = .off ∧ c.sender = .off ∧
    match c.main with
    | .shmget => True
    | .shmat => True
    | .semget => True
    | .lock => sem ≠ none
    | .exited => True
    | _ => False

/-- What holds of the startup, whatever becomes of the lock. -/
structure WorldInv (w : World ι) : Prop where
  wf : ∀ i, (w.clients i).Wf
  sem : w.server.Sem w.mem.sem
  fresh : w.server.Early → ∀ i, (w.clients i).Fresh w.mem.sem
  unwritten : w.server.Early →
    w.mem.writes = [] ∧ w.mem.chat.message_count = 0 ∧ w.mem.increments = 0

variable {ι : Type*}

theorem sem_of_early {w : World ι} (h : WorldInv w) (he : w.server.Early) :
    w.mem.sem = none ∨ w.mem.sem = some 0 := by
  have hs := h.sem
  cases hw : w.server <;> simp_all [ServerPc.Early, ServerPc.Sem]

theorem Client.Fresh.not_inside {sem : Option ℕ} {c : Client} (h : c.Fresh sem) (r : Role) :
    ¬ c.Inside r := by
  obtain ⟨h1, h2, h3⟩ := h
  cases r with
  | main => cases hm : c.main <;> simp_all [Client.Inside]
  | receiver => simp [Client.Inside, h1]
  | sender => simp [Client.Inside, h2]

theorem Client.Fresh.step {segment : Bool} {a : Act} {c c' : Client} {m m' : Shared}
    (hf : c.Fresh m.sem) (hsem : m.sem = none ∨ m.sem = some 0)
    (h : clientStep segment a c m = some (c', m')) : c'.Fresh m.sem ∧ m' = m := by
  obtain ⟨h1, h2, h3⟩ := hf
  cases a with
  | main ok =>
    change mainStep ok segment c m = some (c', m') at h
    cases mainStep_move h with
    | shmget hm hpc | shmat hm hpc =>
      refine ⟨⟨h1, h2, ?_⟩, rfl⟩
      rcases hpc with rfl | rfl
      · trivial
      · trivial
    | semget hm hpc =>
      refine ⟨⟨h1, h2, ?_⟩, rfl⟩
      rcases hpc with ⟨rfl, hs⟩ | rfl
      · exact hs
      · trivial
    | lock hm hl =>
      rw [hm] at h3
      rw [lockSem, hsem.resolve_left h3] at hl
      cases hl
    | register p hm | registered p hm | append p hm | appended p hm | unlock hm | create hm
    | join hm | joinReceiver hm =>
      rw [hm] at h3
      exact h3.elim
  | receiver =>
    obtain ⟨_, _, _, _, _, hon, -⟩ := receiverStep_frame h
    exact absurd h1 hon
  | sender line =>
    obtain ⟨_, _, _, hon, -⟩ := senderStep_frame h
    exact absurd h2 hon

/-- A step of the server, in which one of the calls at startup may fail. -/
inductive ServerMove (w : World ι) : Bool → World ι → Prop where
  | shmget {chat : Chat} : w.server = .shmget → chat = w.mem.chat ∨ chat = .zero →
      ServerMove w true
        { w with server := .shmat, segment := true, mem := { w.mem with chat := chat } }
  | shmat : w.server = .shmat → ServerMove w true { w with server := .memset }
  | memset {ok : Bool} : w.server = .memset →
      ServerMove w ok { w with server := .running, mem := { w.mem with chat := .zero } }
  | running {ok : Bool} : w.server = .running →
      ServerMove w ok { w with
        server := .semget
        mem := { w.mem with chat := { w.mem.chat with server_running := true } } }
  | semget : w.server = .semget →
      ServerMove w true { w with
        server := .setval, mem := { w.mem with sem := some (w.mem.sem.getD 0) } }
  | setval : w.server = .setval →
      ServerMove w true { w with server := .getchar, mem := { w.mem with sem := some 1 } }
  | failed : w.server = .shmget ∨ w.server = .shmat ∨ w.server = .semget ∨ w.server = .setval →
      ServerMove w false { w with server := .failed }
  | getchar {ok : Bool} : w.server = .getchar → ServerMove w ok { w with server := .stopping }
  | stopping {ok : Bool} : w.server = .stopping →
      ServerMove w ok { w with
        server := .shmRmid
        mem := { w.mem with chat := { w.mem.chat with server_running := false } } }
  | shmRmid {ok : Bool} : w.server = .shmRmid →
      ServerMove w ok { w with server := .semRmid, segment := w.segment && !ok }
  | semRmid {ok : Bool} : w.server = .semRmid →
      ServerMove w ok { w with
        server := .exited, mem := { w.mem with sem := if ok then none else w.mem.sem } }

theorem serverStep_move {w w' : World ι} {ok : Bool} (hst : serverStep ok w = some w') :
    ServerMove w ok w' := by
  unfold serverStep at hst
  rcases hs : w.server with _ | _ | _ | _ | _ | _ | _ | _ | _ | _ | _ | _ <;>
    rw [hs] at hst <;> simp only [] at hst
  case shmget =>
    cases ok <;> cases hst
    · exact .failed (.inl hs)
    · exact .shmget hs (ite_eq_or_eq _ _ _)
  case shmat =>
    cases ok <;> cases hst
    · exact .failed (.inr (.inl hs))
    · exact .shmat hs
  case memset =>
    cases hst
    exact .memset hs
  case running =>
    cases hst
    exact .running hs
  case semget =>
    cases ok <;> cases hst
    · exact .failed (.inr (.inr (.inl hs)))
    · exact .semget hs
  case setval =>
    cases ok <;> cases hst
    · exact .failed (.inr (.inr (.inr hs)))
    · exact .setval hs
  case getchar =>
    cases hst
    exact .getchar hs
  case stopping =>
    cases hst
    exact .stopping hs
  case shmRmid =>
    cases hst
    exact .shmRmid hs
  case semRmid =>
    cases hst
    exact .semRmid hs
  case exited => cases hst
  case failed => cases hst

theorem WorldInv.start (names : ι → CharArray NAME_LEN) : WorldInv (World.start names) where
  wf _ _ := ⟨rfl, rfl⟩
  sem := rfl
  fresh _ _ := ⟨rfl, rfl, trivial⟩
  unwritten _ := ⟨rfl, rfl, rfl⟩

theorem WorldInv.server {w w' : World ι} {ok : Bool} (h : WorldInv w)
    (hst : serverStep ok w = some w') : WorldInv w' := by
  obtain ⟨h1, h2, h3, h4⟩ := h
  cases serverStep_move hst with
  | shmget hs hchat =>
    rw [hs] at h2 h3 h4
    refine ⟨h1, h2, h3, fun _ => ⟨(h4 trivial).1, ?_, (h4 trivial).2.2⟩⟩
    rcases hchat with rfl | rfl
    · exact (h4 trivial).2.1
    · rfl
  | shmat hs | running hs =>
    rw [hs] at h2 h3 h4
    exact ⟨h1, h2, h3, h4⟩
  | memset hs =>
    rw [hs] at h2 h3 h4
    exact ⟨h1, h2, h3, fun _ => ⟨(h4 trivial).1, rfl, (h4 trivial).2.2⟩⟩
  | semget hs =>
    rw [hs] at h2 h3 h4
    refine ⟨h1, by rw [h2]; rfl, fun _ i => ?_, h4⟩
    obtain ⟨hr, hse, hm⟩ := h3 trivial i
    refine ⟨hr, hse, ?_⟩
    revert hm
    cases (w.clients i).main <;> simp
  | failed hs =>
    rcases hs with hs | hs | hs | hs <;> rw [hs] at h2 h3 h4
    · exact ⟨h1, .inl h2, h3, h4⟩
    · exact ⟨h1, .inl h2, h3, h4⟩
    · exact ⟨h1, .inl h2, h3, h4⟩
    · exact ⟨h1, .inr h2, h3, h4⟩
  | setval | getchar | stopping | shmRmid | semRmid =>
    exact ⟨h1, trivial, False.elim, False.elim⟩

variable [DecidableEq ι]

theorem step_client {w w' : World ι} {i : ι} {a : Act} (h : step w (.client i a) = some w') :
    ∃ c m, clientStep w.segment a (w.clients i) w.mem = some (c, m) ∧
      w' = { w with mem := m, clients := Function.update w.clients i c } := by
  obtain ⟨⟨c, m⟩, hc, hw⟩ := Option.map_eq_some_iff.mp h
  exact ⟨c, m, hc, hw.symm⟩

/-- What holds of every client holds after a step of one if it holds of that one. -/
theorem forall_update {P : Client → Prop} {cl : ι → Client} {i : ι} {c : Client}
    (hc : P c) (h : ∀ j, P (cl j)) (j : ι) : P (Function.update cl i c j) :=
  (Function.forall_update_iff cl fun _ d => P d).mpr ⟨hc, fun k _ => h k⟩ j

theorem WorldInv.step {w w' : World ι} {l : Label ι} (h : WorldInv w)
    (hst : step w l = some w') : WorldInv w' := by
  cases l with
  | server ok => exact h.server hst
  | client i a =>
    obtain ⟨c, m, hc, rfl⟩ := step_client hst
    refine ⟨forall_update (wf_clientStep (h.wf i) hc) h.wf, ?_, fun he => ?_, fun he => ?_⟩
    · by_cases he : w.server.Early
      · have hm := ((h.fresh he i).step (sem_of_early h he) hc).2
        exact hm ▸ h.sem
      · show w.server.Sem m.sem
        revert he
        cases w.server <;> simp [ServerPc.Early, ServerPc.Sem]
    · obtain ⟨hf, hm⟩ := (h.fresh he i).step (sem_of_early h he) hc
      exact hm ▸ forall_update hf (h.fresh he)
    · have hm := ((h.fresh he i).step (sem_of_early h he) hc).2
      exact hm ▸ h.unwritten he

end Startup

section Lock

variable {ι : Type*} [DecidableEq ι]

/-- The semaphore and the threads inside. -/
def World.lock (w : World ι) : Semaphore.Lock (ι × Role) where
  value := w.mem.sem
  inside := {t | (w.clients t.1).Inside t.2}

/-- What a step is to the lock. -/
def World.move (w : World ι) : Label ι → Semaphore.Move (ι × Role)
  | .server ok =>
    match w.server, ok with
    | .semget, true => .create
    | .setval, true => .set
    | .semRmid, true => .remove
    | _, _ => .stay
  | .client i a =>
    if (w.clients i).Locking a.role then
      if w.mem.sem = none then .pass (i, a.role) else .take (i, a.role)
    else if (w.clients i).Unlocking a.role then .leave (i, a.role)
    else .stay

theorem Client.Unlocking.inside {c : Client} {r : Role} (h : c.Unlocking r) : c.Inside r := by
  cases r with
  | main => simp [Client.Inside, show c.main = .unlock from h]
  | receiver => simp [Client.Inside, show c.receiver = .unlock from h]
  | sender => simp [Client.Inside, show c.sender = .unlock from h]

theorem Client.Locking.not_inside {c : Client} {r : Role} (h : c.Locking r) : ¬ c.Inside r := by
  cases r with
  | main => simp [Client.Inside, show c.main = .lock from h]
  | receiver => simp [Client.Inside, show c.receiver = .lock from h]
  | sender => simp [Client.Inside, show c.sender = .lock from h]

theorem inside_update {cl : ι → Client} {i : ι} {c : Client} {r : Role}
    (hf : ∀ r', r' ≠ r → Frame r' (cl i) c) (t : ι × Role) :
    (Function.update cl i c t.1).Inside t.2 ↔
      if t = (i, r) then c.Inside r else (cl t.1).Inside t.2 := by
  obtain ⟨j, r'⟩ := t
  by_cases hj : j = i
  · subst hj
    rw [Function.update_self]
    by_cases hr : r' = r
    · rw [hr, if_pos rfl]
    · rw [if_neg fun h => hr (Prod.mk.inj h).2]
      exact (hf r' hr).inside
  · rw [Function.update_of_ne hj, if_neg fun h => hj (Prod.mk.inj h).1]

section Update

variable {w : World ι} {i : ι} {r : Role} {c : Client} {m : Shared}

theorem lock_enter (hf : ∀ r', r' ≠ r → Frame r' (w.clients i) c) (hin : c.Inside r) :
    World.lock { w with mem := m, clients := Function.update w.clients i c }
      = ⟨m.sem, insert (i, r) w.lock.inside⟩ := by
  refine congrArg (Semaphore.Lock.mk m.sem) (Set.ext fun t => (inside_update hf t).trans ?_)
  by_cases ht : t = (i, r)
  · rw [if_pos ht]
    exact iff_of_true hin (.inl ht)
  · rw [if_neg ht]
    exact ⟨.inr, fun h => h.resolve_left ht⟩

theorem lock_leave (hf : ∀ r', r' ≠ r → Frame r' (w.clients i) c) (hout : ¬ c.Inside r) :
    World.lock { w with mem := m, clients := Function.update w.clients i c }
      = ⟨m.sem, w.lock.inside \ {(i, r)}⟩ := by
  refine congrArg (Semaphore.Lock.mk m.sem) (Set.ext fun t => (inside_update hf t).trans ?_)
  by_cases ht : t = (i, r)
  · rw [if_pos ht]
    exact iff_of_false hout fun h => h.2 ht
  · rw [if_neg ht]
    exact ⟨fun h => ⟨h, ht⟩, fun h => h.1⟩

theorem lock_stay (hf : ∀ r', r' ≠ r → Frame r' (w.clients i) c) (hsem : m.sem = w.mem.sem)
    (hin : c.Inside r ↔ (w.clients i).Inside r) :
    World.lock { w with mem := m, clients := Function.update w.clients i c } = w.lock := by
  have hset : {t : ι × Role | (Function.update w.clients i c t.1).Inside t.2} = w.lock.inside := by
    refine Set.ext fun t => (inside_update hf t).trans ?_
    by_cases ht : t = (i, r)
    · rw [if_pos ht, ht]
      exact hin
    · rw [if_neg ht]
      rfl
  unfold World.lock
  rw [hset, hsem]
  rfl

end Update

omit [DecidableEq ι] in
theorem move_client (w : World ι) (i : ι) (a : Act) : w.move (.client i a) =
    if (w.clients i).Locking a.role then
      if w.mem.sem = none then .pass (i, a.role) else .take (i, a.role)
    else if (w.clients i).Unlocking a.role then .leave (i, a.role)
    else .stay := rfl

theorem lock_client {w w' : World ι} {i : ι} {a : Act} (h : WorldInv w)
    (hst : step w (.client i a) = some w') :
    Semaphore.lockLts.step w.lock (w.move (.client i a)) w'.lock := by
  obtain ⟨c, m, hc, rfl⟩ := step_client hst
  have hf := clientStep_frame (h.wf i) hc
  have hstay : (w.clients i).Inside a.role → ¬ (w.clients i).Unlocking a.role → c.Inside a.role →
      m.sem = w.mem.sem → Semaphore.lockLts.step w.lock (w.move (.client i a))
        (World.lock { w with mem := m, clients := Function.update w.clients i c }) := by
    intro hin hun hin' hsem
    rw [move_client, if_neg fun hl : Client.Locking _ _ => hl.not_inside hin, if_neg hun,
      lock_stay hf hsem (iff_of_true hin' hin)]
    exact .stay
  cases clientStep_turn hc with
  | lock hl hm hin =>
    rw [move_client, if_pos hl, lock_enter hf hin]
    unfold lockSem at hm
    rcases hs : w.mem.sem with _ | _ | n <;> rw [hs] at hm <;> cases hm
    · rw [if_pos rfl, hs]
      exact .pass hs
    · rw [if_neg (Option.some_ne_none _)]
      exact .take hs
  | unlock hu hm hout =>
    rw [move_client, if_neg fun hl : Client.Locking _ _ => hl.not_inside hu.inside, if_pos hu,
      lock_leave hf hout, hm]
    exact Semaphore.Step.leave (t := (i, a.role)) (k := w.lock) hu.inside
  | append p msg hp hm _ hin =>
    obtain ⟨h1, h2⟩ := Client.inside_of_appending hp
    exact hstay h1 h2 hin (by rw [hm]; cases p <;> rfl)
  | inside hin hun _ hin' _ hsem => exact hstay hin hun hin' hsem
  | outside hout hnl hout' hm =>
    rw [move_client, if_neg hnl, if_neg fun hu : Client.Unlocking _ _ => hout hu.inside,
      lock_stay hf (congrArg Shared.sem hm) (iff_of_false hout' hout)]
    exact .stay

theorem lock_server {w w' : World ι} {ok : Bool} (h : WorldInv w)
    (hst : step w (.server ok) = some w') :
    Semaphore.lockLts.step w.lock (w.move (.server ok)) w'.lock := by
  have hempty : w.server.Early → w.lock.inside = ∅ := fun he =>
    Set.eq_empty_iff_forall_notMem.mpr fun t => (h.fresh he t.1).not_inside t.2
  have hsem := h.sem
  unfold World.move
  change serverStep ok w = some w' at hst
  cases serverStep_move hst with
  | semget hs =>
    rw [hs] at hsem hempty ⊢
    have hv : w.mem.sem = none := hsem
    rw [hv]
    exact .create hv (hempty trivial)
  | setval hs =>
    rw [hs] at hsem hempty ⊢
    exact .set hsem (hempty trivial)
  | semRmid hs =>
    rw [hs]
    cases ok
    · exact .stay
    · exact .remove
  | failed hs =>
    rcases hs with hs | hs | hs | hs <;> rw [hs]
    · exact .stay
    · exact .stay
    · exact .stay
    · exact .stay
  | shmget hs | shmat hs | memset hs | running hs | getchar hs | stopping hs | shmRmid hs =>
    rw [hs]
    exact .stay

/-- Every step is one of a lock whose semaphore may be removed. -/
theorem lock_step {w w' : World ι} {l : Label ι} (h : WorldInv w) (hst : step w l = some w') :
    Semaphore.lockLts.step w.lock (w.move l) w'.lock := by
  cases l with
  | server ok => exact lock_server h hst
  | client i a => exact lock_client h hst

omit [DecidableEq ι] in
theorem one_group_lock {w : World ι} :
    Semaphore.OneGroup Prod.fst w.lock ↔ ∀ i j, w.Inside i → w.Inside j → i = j := by
  constructor
  · rintro h i j ⟨r, hi⟩ ⟨r', hj⟩
    exact h (i, r) hi (j, r') hj
  · rintro h ⟨i, r⟩ hi ⟨j, r'⟩ hj
    exact h i j ⟨r, hi⟩ ⟨r', hj⟩

omit [DecidableEq ι] in
theorem clear_move {w : World ι} {l : Label ι} :
    Semaphore.Clear Prod.fst w.lock (w.move l) ↔ Clear w l := by
  cases l with
  | server ok =>
    refine iff_of_true ?_ trivial
    unfold World.move
    cases w.server <;> cases ok <;> trivial
  | client i a =>
    rw [move_client]
    unfold Clear
    by_cases hl : (w.clients i).Locking a.role
    · rw [if_pos hl]
      by_cases hs : w.mem.sem = none
      · rw [if_pos hs]
        constructor
        · rintro h - - j ⟨r, hj⟩
          exact h (j, r) hj
        · rintro h ⟨j, r⟩ hj
          exact h hl hs j ⟨r, hj⟩
      · rw [if_neg hs]
        exact iff_of_true trivial fun _ h => absurd h hs
    · rw [if_neg hl]
      refine iff_of_true ?_ fun h => absurd h hl
      split_ifs <;> trivial

/-- At most one process is ever inside exactly when no `lock_sem` fails while another is. -/
theorem inside_iff {tr : List (World ι × Label ι)} {w : World ι} (h : shmLts.Run tr w) :
    (∀ v ∈ Lts.visited tr w, ∀ i j, v.Inside i → v.Inside j → i = j) ↔
      ∀ p ∈ tr, Clear p.1 p.2 := by
  obtain ⟨w₀, ⟨names, rfl⟩, hp⟩ := h
  have hpath := hp.map (U := Semaphore.lockLts) (f := World.lock) (g := World.move)
    (fun _ _ _ => WorldInv.step) (fun _ _ _ => lock_step) (.start names)
  have hempty : (World.start names).lock = ⟨none, ∅⟩ :=
    congrArg (Semaphore.Lock.mk none) (Set.eq_empty_iff_forall_notMem.mpr fun t =>
      ((WorldInv.start names).fresh trivial t.1).not_inside t.2)
  have hrun : Semaphore.lockLts.Run _ w.lock := ⟨_, hempty, hpath⟩
  have hiff := Semaphore.one_group_iff (g := Prod.fst) hrun
  rw [Lts.visited_map] at hiff
  simp only [List.forall_mem_map, one_group_lock, clear_move] at hiff
  exact hiff

end Lock

section Messages

variable {ι : Type*}

/-- The slots written, where a thread is that appends a message. -/
def Phase.Wrote (count : ℕ) (writes : List ℕ) : Phase → Prop
  | .test => writes = List.range count
  | .slot => writes = List.range count
  | .write n => n = count ∧ writes = List.range count
  | .load => writes = List.range (count + 1)
  | .store n => n = count ∧ writes = List.range (count + 1)

/-- The slots written are those counted, and the one a thread is about to count. -/
structure AppendInv (w : World ι) : Prop where
  increments : w.mem.chat.message_count = w.mem.increments
  phase : ∀ i r p, (w.clients i).appending r = some p →
    p.Wrote w.mem.chat.message_count w.mem.writes
  idle : (∀ i r, (w.clients i).appending r = none) →
    w.mem.writes = List.range w.mem.chat.message_count

theorem Phase.Wrote.nodup {p : Phase} {count : ℕ} {writes : List ℕ} (h : p.Wrote count writes) :
    writes.Nodup := by
  cases p with
  | test => exact h ▸ List.nodup_range
  | slot => exact h ▸ List.nodup_range
  | write n => exact h.2 ▸ List.nodup_range
  | load => exact h ▸ List.nodup_range
  | store n => exact h.2 ▸ List.nodup_range

theorem AppendInv.nodup {w : World ι} (h : AppendInv w) : w.mem.writes.Nodup := by
  by_cases hidle : ∀ i r, (w.clients i).appending r = none
  · rw [h.idle hidle]
    exact List.nodup_range
  · push Not at hidle
    obtain ⟨i, r, hne⟩ := hidle
    obtain ⟨p, hp⟩ := Option.ne_none_iff_exists'.mp hne
    exact (h.phase i r p hp).nodup

theorem Phase.Wrote.next {p : Phase} {m : Shared}
    (h : p.Wrote m.chat.message_count m.writes) (msg : ChatMessage) :
    (∀ q, p.next MAX_MESSAGES m.chat.message_count = some q →
      q.Wrote (appendMessage msg p m).chat.message_count (appendMessage msg p m).writes) ∧
    (p.next MAX_MESSAGES m.chat.message_count = none →
      (appendMessage msg p m).writes
        = List.range (appendMessage msg p m).chat.message_count) := by
  cases p with
  | test =>
    unfold Phase.next
    split_ifs
    · exact ⟨fun q hq => by cases hq; exact h, fun hq => by cases hq⟩
    · exact ⟨fun q hq => (by cases hq), fun _ => h⟩
  | slot => exact ⟨fun q hq => by cases hq; exact ⟨rfl, h⟩, fun hq => by cases hq⟩
  | write n =>
    refine ⟨fun q hq => ?_, fun hq => by cases hq⟩
    cases hq
    show m.writes ++ [n] = List.range (m.chat.message_count + 1)
    rw [h.1, h.2, List.range_succ]
  | load => exact ⟨fun q hq => by cases hq; exact ⟨rfl, h⟩, fun hq => by cases hq⟩
  | store n =>
    refine ⟨fun q hq => (by cases hq), fun _ => ?_⟩
    show m.writes = List.range (n + 1)
    rw [h.1]
    exact h.2

theorem increments_appendMessage {p : Phase} {msg : ChatMessage} {m : Shared}
    (hw : p.Wrote m.chat.message_count m.writes) (h : m.chat.message_count = m.increments) :
    (appendMessage msg p m).chat.message_count = (appendMessage msg p m).increments := by
  cases p with
  | store n => exact congrArg (· + 1) (hw.1.trans h)
  | _ => exact h

theorem appendInv_of_early {w : World ι} (h : WorldInv w) (he : w.server.Early) :
    AppendInv w := by
  obtain ⟨h1, h2, h3⟩ := h.unwritten he
  refine ⟨by rw [h2, h3], fun i r p hp => ?_, fun _ => by rw [h1, h2]; rfl⟩
  exact absurd (Client.inside_of_appending hp).1 ((h.fresh he i).not_inside r)

/-- A process's sender exists only once its main thread is done appending. -/
theorem Client.Wf.appending_sender {c : Client} {p : Phase} (hw : c.Wf)
    (h : c.appending .main = some p) : c.appending .sender = none := by
  have hs : ¬ c.main.Spawned := by
    cases hm : c.main <;> simp_all [Client.appending, MainPc.Spawned]
  unfold Client.appending
  rw [(hw hs).2]

theorem appending_unique {w : World ι} (h : WorldInv w)
    (hx : ∀ i j, w.Inside i → w.Inside j → i = j) {i j : ι} {r r' : Role} {p p' : Phase}
    (hp : (w.clients i).appending r = some p) (hp' : (w.clients j).appending r' = some p') :
    (j, r') = (i, r) := by
  obtain rfl := hx i j ⟨r, (Client.inside_of_appending hp).1⟩
    ⟨r', (Client.inside_of_appending hp').1⟩
  cases r with
  | main =>
    cases r' with
    | main => rfl
    | receiver => cases hp'
    | sender =>
      rw [(h.wf i).appending_sender hp] at hp'
      cases hp'
  | receiver => cases hp
  | sender =>
    cases r' with
    | main =>
      rw [(h.wf i).appending_sender hp'] at hp
      cases hp
    | receiver => cases hp'
    | sender => rfl

variable [DecidableEq ι]

theorem appending_update {cl : ι → Client} {i : ι} {c : Client} {r : Role}
    (hf : ∀ r', r' ≠ r → Frame r' (cl i) c) (j : ι) (r' : Role) :
    (Function.update cl i c j).appending r' =
      if (j, r') = (i, r) then c.appending r else (cl j).appending r' := by
  by_cases hj : j = i
  · subst hj
    rw [Function.update_self]
    by_cases hr : r' = r
    · rw [hr, if_pos rfl]
    · rw [if_neg fun h => hr (Prod.mk.inj h).2]
      exact (hf r' hr).appending
  · rw [Function.update_of_ne hj, if_neg fun h => hj (Prod.mk.inj h).1]

/-- A thread that is not appending leaves the record alone, and may start to append. -/
theorem AppendInv.quiet {w : World ι} {i : ι} {r : Role} {c : Client} {m : Shared}
    (h : AppendInv w) (hf : ∀ r', r' ≠ r → Frame r' (w.clients i) c)
    (hw' : WorldInv { w with mem := m, clients := Function.update w.clients i c })
    (hx' : ∀ j k, World.Inside { w with mem := m, clients := Function.update w.clients i c } j →
      World.Inside { w with mem := m, clients := Function.update w.clients i c } k → j = k)
    (hbefore : (w.clients i).appending r = none)
    (hafter : c.appending r = none ∨ c.appending r = some .test)
    (hwrites : m.writes = w.mem.writes)
    (hcount : m.chat.message_count = w.mem.chat.message_count)
    (hinc : m.increments = w.mem.increments) :
    AppendInv { w with mem := m, clients := Function.update w.clients i c } := by
  have hother : ∀ j r', (j, r') ≠ (i, r) →
      (Function.update w.clients i c j).appending r' = (w.clients j).appending r' := by
    intro j r' hne
    rw [appending_update hf, if_neg hne]
  have hself : (Function.update w.clients i c i).appending r = c.appending r := by
    rw [appending_update hf, if_pos rfl]
  refine ⟨?_, fun j r' p hp => ?_, fun hidle => ?_⟩
  · show m.chat.message_count = m.increments
    rw [hcount, hinc]
    exact h.increments
  · show p.Wrote m.chat.message_count m.writes
    rw [hcount, hwrites]
    by_cases hne : (j, r') = (i, r)
    · cases hne
      rcases hafter with ha | ha
      · cases ha.symm.trans (hself.symm.trans hp)
      · cases ha.symm.trans (hself.symm.trans hp)
        -- whoever else appended would still do so, next to this thread
        refine h.idle fun k s => ?_
        by_cases hk : (k, s) = (i, r)
        · cases hk
          exact hbefore
        · by_contra hne
          obtain ⟨q, hq⟩ := Option.ne_none_iff_exists'.mp hne
          exact hk (appending_unique hw' hx' hp ((hother k s hk).trans hq))
    · exact h.phase j r' p ((hother j r' hne).symm.trans hp)
  · show m.writes = List.range m.chat.message_count
    rw [hcount, hwrites]
    refine h.idle fun j r' => ?_
    by_cases hne : (j, r') = (i, r)
    · cases hne
      exact hbefore
    · exact (hother j r' hne).symm.trans (hidle j r')

theorem AppendInv.access {w : World ι} {i : ι} {r : Role} {c : Client} {p : Phase}
    {msg : ChatMessage} (h : AppendInv w) (hw : WorldInv w)
    (hx : ∀ j k, w.Inside j → w.Inside k → j = k)
    (hf : ∀ r', r' ≠ r → Frame r' (w.clients i) c) (hp : (w.clients i).appending r = some p)
    (hnext : c.appending r = p.next MAX_MESSAGES w.mem.chat.message_count) :
    AppendInv { w with
      mem := appendMessage msg p w.mem, clients := Function.update w.clients i c } := by
  have hwrote := h.phase i r p hp
  obtain ⟨hsome, hnone⟩ := hwrote.next msg
  refine ⟨increments_appendMessage hwrote h.increments, fun j r' q hq => ?_, fun hidle => ?_⟩
  · change (Function.update w.clients i c j).appending r' = some q at hq
    rw [appending_update hf] at hq
    split_ifs at hq with hne
    · exact hsome q (hnext ▸ hq)
    · exact absurd (appending_unique hw hx hp hq) hne
  · have hself := hidle i r
    change (Function.update w.clients i c i).appending r = none at hself
    rw [appending_update hf, if_pos rfl] at hself
    exact hnone (hnext ▸ hself)

theorem AppendInv.step {w w' : World ι} {l : Label ι} (h : AppendInv w) (hw : WorldInv w)
    (hx : ∀ i j, w.Inside i → w.Inside j → i = j)
    (hx' : ∀ i j, w'.Inside i → w'.Inside j → i = j) (hst : step w l = some w') :
    AppendInv w' := by
  have hw' := hw.step hst
  cases l with
  | server ok =>
    by_cases he : w'.server.Early
    · exact appendInv_of_early hw' he
    · change serverStep ok w = some w' at hst
      cases serverStep_move hst with
      | shmget | shmat | memset | running | semget | failed => exact absurd trivial he
      | setval | getchar | stopping | shmRmid | semRmid =>
        exact ⟨h.increments, h.phase, h.idle⟩
  | client i a =>
    obtain ⟨c, m, hc, rfl⟩ := step_client hst
    have hf := clientStep_frame (hw.wf i) hc
    cases clientStep_turn hc with
    | lock hl hm _ hap =>
      unfold lockSem at hm
      split at hm <;> cases hm <;>
        exact h.quiet hf hw' hx' (Client.appending_eq_none hl.not_inside) hap rfl rfl rfl
    | unlock hu hm hout =>
      exact h.quiet hf hw' hx' hu.appending (.inl (Client.appending_eq_none hout)) (hm ▸ rfl)
        (hm ▸ rfl) (hm ▸ rfl)
    | append p msg hp hm hnext =>
      rw [hm]
      exact h.access hw hx hf hp hnext
    | inside _ _ hbefore _ hap _ h1 h2 h3 => exact h.quiet hf hw' hx' hbefore hap h1 h2 h3
    | outside hout _ hout' hm =>
      exact h.quiet hf hw' hx' (Client.appending_eq_none hout)
        (.inl (Client.appending_eq_none hout')) (hm ▸ rfl) (hm ▸ rfl) (hm ▸ rfl)

/-- Along clear steps the lock excludes and the record agrees with the segment. -/
theorem exclusive_run {tr : List (World ι × Label ι)} {w : World ι} (h : shmLts.Run tr w)
    (hclear : ∀ p ∈ tr, Clear p.1 p.2) : Exclusive w := by
  have hinside := (inside_iff h).mpr hclear
  obtain ⟨w₀, ⟨names, rfl⟩, hpath⟩ := h
  have hw := WorldInv.start names
  have hinv := hpath.inv_within (I := fun w => WorldInv w ∧ AppendInv w)
    (P := fun w => ∀ i j, w.Inside i → w.Inside j → i = j)
    (fun _ _ _ hI hx hx' hst => ⟨hI.1.step hst, hI.2.step hI.1 hx hx' hst⟩)
    hinside ⟨hw, appendInv_of_early hw trivial⟩
  exact ⟨hinside w (List.mem_append_right _ (List.mem_singleton_self w)), hinv.2.nodup,
    hinv.2.increments⟩

/-- In a run, at most one process is ever inside, no message slot is written twice and no increment
is lost, exactly when no `lock_sem` fails while another process is inside. -/
theorem lock_excludes_iff {tr : List (World ι × Label ι)} {w : World ι} (h : shmLts.Run tr w) :
    (∀ v ∈ Lts.visited tr w, Exclusive v) ↔ ∀ p ∈ tr, Clear p.1 p.2 := by
  constructor
  · exact fun hall => (inside_iff h).mp fun v hv => (hall v hv).inside
  · intro hclear v hv
    obtain ⟨tr₁, tr₂, rfl, hrun⟩ := h.visited hv
    exact exclusive_run hrun fun p hp => hclear p (List.mem_append_left _ hp)

end Messages

section TwoClients

def ann : CharArray NAME_LEN := .print (ascii "ann") NAME_LEN_pos

def hi : CharArray TEXT_LEN := .print (ascii "hi") TEXT_LEN_pos

/-- The server starts, two clients join, and their senders wait for a line. -/
def chatLabels : List (Label Bool) :=
  List.replicate 6 (.server true) ++ List.replicate 16 (.client false (.main true)) ++
    List.replicate 16 (.client true (.main true)) ++
    [.client false (.sender hi), .client true (.sender hi)]

def stopLabels : List (Label Bool) := List.replicate 4 (.server true)

def Label.ofServer : Label ι → Bool
  | .server _ => true
  | .client _ _ => false

/-- What the run of two clients shows of a state. -/
def World.summary (w : World Bool) : SenderPc × SenderPc × List ℕ × ℕ × ℕ :=
  ((w.clients false).sender, (w.clients true).sender, w.mem.writes, w.mem.chat.message_count,
    w.mem.increments)

/-- One sends a line, then the other, and then the server stops. -/
theorem lock_excludes_iff_two_lines : ∃ (tr : _) (w : World Bool), shmLts.Run tr w ∧
    w.mem.sem = none ∧ w.mem.writes = [0, 1, 2, 3] ∧ ∀ v ∈ Lts.visited tr w, Exclusive v := by
  have h : (Lts.exec step (World.start fun _ => ann) (chatLabels ++
      List.replicate 8 (.client false (.sender hi)) ++
      List.replicate 8 (.client true (.sender hi)) ++ stopLabels)).map (fun w =>
      (w.mem.sem, w.mem.writes)) = some (none, [0, 1, 2, 3]) := by
    decide
  have hsem : ∀ p ∈ Lts.trace step (World.start fun _ => ann) (chatLabels ++
      List.replicate 8 (.client false (.sender hi)) ++
      List.replicate 8 (.client true (.sender hi)) ++ stopLabels),
      p.1.mem.sem = none → p.2.ofServer = true := by
    decide
  obtain ⟨w, hw, hf⟩ := Option.map_eq_some_iff.mp h
  have hrun : shmLts.Run _ w := ⟨_, ⟨_, rfl⟩, Lts.exec_path (fun _ _ _ => id) hw⟩
  refine ⟨_, w, hrun, (Prod.mk.inj hf).1, (Prod.mk.inj hf).2,
    (lock_excludes_iff hrun).mpr ?_⟩
  rintro ⟨v, l⟩ hp
  cases l with
  | server ok => trivial
  | client i a => exact fun _ hv => absurd (hsem _ hp hv) Bool.false_ne_true

/-- Both type a line when the server has stopped: both are inside together, write the same slot, and
one increment is lost. -/
theorem lock_admits_both : ∃ (tr : _) (w : World Bool), shmLts.Run tr w ∧ w.Inside false ∧
    w.Inside true ∧ w.mem.writes = [0, 1, 2, 2] ∧ w.mem.chat.message_count = 3 ∧
    w.mem.increments = 4 := by
  have h : (Lts.exec step (World.start fun _ => ann) (chatLabels ++ stopLabels ++
      (List.replicate 7 [Label.client false (.sender hi), .client true (.sender hi)]).flatten)).map
      World.summary = some (.unlock, .unlock, [0, 1, 2, 2], 3, 4) := by
    decide
  obtain ⟨w, hw, hf⟩ := Option.map_eq_some_iff.mp h
  simp only [World.summary, Prod.mk.injEq] at hf
  obtain ⟨h1, h2, h3⟩ := hf
  exact ⟨_, w, ⟨_, ⟨_, rfl⟩, Lts.exec_path (fun _ _ _ => id) hw⟩,
    ⟨.sender, by simp [Client.Inside, h1]⟩, ⟨.sender, by simp [Client.Inside, h2]⟩, h3⟩

end TwoClients

end EltexSystems.ShmChat
