import EltexSystems.Proofs.ShmChat
import EltexSystems.ShmLog

/-!
# What the shared memory chat keeps

A thread that registers its name or appends its message fills the next slot of a table, and its
accesses together append the entry unless the table is full (`Phase.Room.stored_end`).  With at
most one thread filling, a step only lets the tables grow (`LogInv.step`), so the messages stored
are the first hundred submitted, each line a sender has read is submitted once, and every receiver
has shown the messages below its cursor (`log_kept`).
-/

namespace EltexSystems.ShmChat

open CStr GrowingTable

section Fill

variable {α : Type*} {max : ℕ} {v : α} {t : GrowingTable α} {p q : Phase}

/-- An access of a thread that fills the next slot of a table. -/
def Phase.fill (v : α) (p : Phase) (t : GrowingTable α) : GrowingTable α :=
  match p with
  | .write n => { t with slots := Function.update t.slots n v }
  | .store n => { t with count := n + 1 }
  | _ => t

/-- What the thread has seen of the table, and left in it. -/
def Phase.Room (max : ℕ) (v : α) (t : GrowingTable α) : Phase → Prop
  | .test => True
  | .slot => t.count < max
  | .write n => n = t.count ∧ t.count < max
  | .load => t.count < max ∧ t.slots t.count = v
  | .store n => n = t.count ∧ t.count < max ∧ t.slots t.count = v

theorem Phase.Room.fill_eq (h : p.Room max v t) :
    p.fill v t = match p with
      | .write _ => t.write v
      | .store _ => t.extend
      | _ => t := by
  cases p with
  | write n =>
    obtain ⟨rfl, -⟩ := h
    rfl
  | store n =>
    obtain ⟨rfl, -⟩ := h
    rfl
  | _ => rfl

theorem Phase.Room.grows (h : p.Room max v t) : t.Grows (p.fill v t) := by
  rw [h.fill_eq]
  cases p with
  | write n => exact t.grows_write v
  | store n => exact t.grows_extend
  | _ => exact .refl t

theorem Phase.Room.next (h : p.Room max v t) (hq : p.next max t.count = some q) :
    q.Room max v (p.fill v t) := by
  rw [h.fill_eq]
  cases p with
  | test =>
    unfold Phase.next at hq
    split_ifs at hq with hlt
    cases hq
    exact hlt
  | slot =>
    cases hq
    exact ⟨rfl, h⟩
  | write n =>
    cases hq
    exact ⟨h.2, t.slots_write v⟩
  | load =>
    cases hq
    exact ⟨rfl, h⟩
  | store n => cases hq

theorem Phase.Room.count_le (h : p.Room max v t) (ht : t.count ≤ max) :
    (p.fill v t).count ≤ max := by
  rw [h.fill_eq]
  cases p with
  | store n => exact h.2.1
  | _ => exact ht

theorem Phase.Room.stored_on (h : p.Room max v t) (hq : p.next max t.count = some q) :
    (p.fill v t).stored = t.stored := by
  cases p with
  | write n =>
    obtain ⟨rfl, -⟩ := h
    exact t.stored_write v
  | store n => cases hq
  | _ => rfl

/-- The last access has appended the entry if the table had room, and nothing otherwise. -/
theorem Phase.Room.stored_end (h : p.Room max v t) (ht : t.count ≤ max)
    (hq : p.next max t.count = none) : (p.fill v t).stored = (t.stored ++ [v]).take max := by
  cases p with
  | test =>
    have hfull : max ≤ t.stored.length := by
      rw [t.length_stored]
      by_contra hlt
      exact Option.some_ne_none _ ((if_pos (Nat.lt_of_not_le hlt)).symm.trans hq)
    rw [List.take_append_of_le_length hfull]
    exact (List.take_of_length_le (t.length_stored.trans_le ht)).symm
  | store n =>
    obtain ⟨rfl, hlt, hv⟩ := h
    refine (t.stored_extend.trans (hv ▸ rfl)).trans (List.take_of_length_le ?_).symm
    rw [List.length_append, t.length_stored]
    exact hlt
  | _ => cases hq

end Fill

section Threads

variable {segment : Bool} {a : Act} {c c' : Client} {m m' : Shared} {r : Role} {p : Phase}

theorem names_registerName (name : CharArray NAME_LEN) (p : Phase) (m : Shared) :
    (registerName name p m).chat.names = p.fill (.print name.text NAME_LEN_pos) m.chat.names := by
  cases p <;> rfl

theorem log_registerName (name : CharArray NAME_LEN) (p : Phase) (m : Shared) :
    (registerName name p m).chat.log = m.chat.log := by
  cases p <;> rfl

theorem names_appendMessage (msg : ChatMessage) (p : Phase) (m : Shared) :
    (appendMessage msg p m).chat.names = m.chat.names := by
  cases p <;> rfl

theorem log_appendMessage (msg : ChatMessage) (p : Phase) (m : Shared) :
    (appendMessage msg p m).chat.log = p.fill msg m.chat.log := by
  cases p <;> rfl

/-- Where the main thread is in registering its name. -/
def Client.registering (c : Client) : Option Phase :=
  match c.main with
  | .register p => some p
  | _ => none

/-- The message the thread appends. -/
def Client.message (c : Client) : Role → ChatMessage
  | .main => joinMessage c
  | .receiver => lineMessage c
  | .sender => lineMessage c

/-- What a client's step is to the two tables. -/
inductive Fills (r : Role) (c c' : Client) (m m' : Shared) : Prop where
  | register (p : Phase) : r = .main → c.registering = some p → m' = registerName c.name p m →
      (∀ q, c'.registering = some q → p.next MAX_CLIENTS m.chat.client_count = some q) →
      c.appending r = none → c'.appending r = none ∨ c'.appending r = some .test →
      Fills r c c' m m'
  | append (p : Phase) : c.appending r = some p → m' = appendMessage (c.message r) p m →
      c'.appending r = p.next MAX_MESSAGES m.chat.message_count → c'.message r = c.message r →
      (r = .main → c'.registering = none) → Fills r c c' m m'
  | neither : m'.chat = m.chat → c.appending r = none →
      c'.appending r = none ∨ c'.appending r = some .test →
      (r = .main → c'.registering = none ∨ c'.registering = some .test) → Fills r c c' m m'

theorem chat_lockSem (h : lockSem m = some m') : m'.chat = m.chat := by
  unfold lockSem at h
  split at h <;> cases h <;> rfl

theorem mainStep_fills {ok : Bool} (h : mainStep ok segment c m = some (c', m')) :
    Fills .main c c' m m' := by
  cases mainStep_move h with
  | shmget hm hpc | shmat hm hpc =>
    have happ : c.appending .main = none := by simp [Client.appending, hm]
    rcases hpc with rfl | rfl
    · exact .neither rfl happ (.inl rfl) fun _ => .inl rfl
    · exact .neither rfl happ (.inl rfl) fun _ => .inl rfl
  | semget hm hpc =>
    have happ : c.appending .main = none := by simp [Client.appending, hm]
    rcases hpc with ⟨rfl, -⟩ | rfl
    · exact .neither rfl happ (.inl rfl) fun _ => .inl rfl
    · exact .neither rfl happ (.inl rfl) fun _ => .inl rfl
  | lock hm hl =>
    exact .neither (chat_lockSem hl) (by simp [Client.appending, hm]) (.inl rfl)
      fun _ => .inr rfl
  | register p hm hn =>
    exact .register p rfl (by simp [Client.registering, hm]) rfl (fun q hq => hn.trans hq)
      (by simp [Client.appending, hm]) (.inl rfl)
  | registered p hm _ hpc =>
    have hreg : c.registering = some p := by simp [Client.registering, hm]
    have happ : c.appending .main = none := by simp [Client.appending, hm]
    rcases hpc with rfl | rfl
    · exact .register p rfl hreg rfl (fun q hq => by cases hq) happ (.inl rfl)
    · exact .register p rfl hreg rfl (fun q hq => by cases hq) happ (.inr rfl)
  | append p hm hn | appended p hm hn =>
    exact .append p (by simp [Client.appending, hm]) rfl hn.symm rfl fun _ => rfl
  | unlock hm | create hm | join hm | joinReceiver hm =>
    exact .neither rfl (by simp [Client.appending, hm]) (.inl rfl) fun _ => .inl rfl

theorem receiverStep_fills (h : receiverStep c m = some (c', m')) :
    Fills .receiver c c' m m' := by
  refine .neither ?_ rfl (.inl rfl) fun hr => by cases hr
  cases receiverStep_move h with
  | lock _ hl => exact chat_lockSem hl
  | top | total | «show» | shown | names | unlock => rfl

theorem senderStep_fills {line : CharArray TEXT_LEN} (h : senderStep line c m = some (c', m')) :
    Fills .sender c c' m m' := by
  cases senderStep_move h with
  | top hm hpc =>
    have happ : c.appending .sender = none := by simp [Client.appending, hm]
    rcases hpc with rfl | rfl
    · exact .neither rfl happ (.inl rfl) fun hr => by cases hr
    · exact .neither rfl happ (.inl rfl) fun hr => by cases hr
  | quit hm | empty hm | line hm | unlock hm =>
    exact .neither rfl (by simp [Client.appending, hm]) (.inl rfl) fun hr => by cases hr
  | lock hm hl =>
    exact .neither (chat_lockSem hl) (by simp [Client.appending, hm]) (.inr rfl)
      fun hr => by cases hr
  | append p hm hn | appended p hm hn =>
    exact .append p (by simp [Client.appending, hm]) rfl hn.symm rfl fun hr => by cases hr

theorem clientStep_fills (h : clientStep segment a c m = some (c', m')) :
    Fills a.role c c' m m' := by
  cases a with
  | main ok => exact mainStep_fills h
  | receiver => exact receiverStep_fills h
  | sender line => exact senderStep_fills h

/-- A receiver has shown the slots below its cursor, and looks at none behind those in use. -/
structure Client.Cursor (c : Client) (t : GrowingTable ChatMessage) : Prop where
  last_seen : c.last_seen ≤ t.count
  total : c.total ≤ t.count
  shown : c.shown = t.firsts c.last_seen

theorem Client.Cursor.grow {t t' : GrowingTable ChatMessage} (h : c.Cursor t) (hg : t.Grows t') :
    c.Cursor t' where
  last_seen := h.last_seen.trans hg.count
  total := h.total.trans hg.count
  shown := h.shown.trans (hg.firsts_eq h.last_seen).symm

theorem receiverStep_cursor (h : receiverStep c m = some (c', m')) (hc : c.Cursor m.chat.log) :
    c'.Cursor m.chat.log := by
  obtain ⟨h1, h2, h3⟩ := hc
  cases receiverStep_move h with
  | total => exact ⟨h1, Nat.le_refl _, h3⟩
  | «show» _ hlt =>
    refine ⟨hlt.1.trans_le h2, h2, ?_⟩
    show c.shown ++ [m.chat.log.slots c.last_seen] = m.chat.log.firsts (c.last_seen + 1)
    rw [firsts_succ, h3]
  | top | lock | shown | names | unlock => exact ⟨h1, h2, h3⟩

theorem clientStep_cursor (h : clientStep segment a c m = some (c', m'))
    (hc : c.Cursor m.chat.log) : c'.Cursor m.chat.log := by
  cases a with
  | main ok =>
    obtain ⟨_, _, _, _, rfl, -⟩ := mainStep_frame h
    exact ⟨hc.last_seen, hc.total, hc.shown⟩
  | receiver => exact receiverStep_cursor h hc
  | sender line =>
    obtain ⟨_, _, _, -, rfl⟩ := senderStep_frame h
    exact ⟨hc.last_seen, hc.total, hc.shown⟩

theorem clientStep_message (h : clientStep segment a c m = some (c', m')) :
    c'.name = c.name ∧ ∀ r p, r ≠ a.role → c'.appending r = some p →
      c'.message r = c.message r := by
  cases a with
  | main ok =>
    obtain ⟨_, _, _, _, rfl, -⟩ := mainStep_frame h
    exact ⟨rfl, fun r _ _ _ => by cases r <;> rfl⟩
  | receiver =>
    obtain ⟨_, _, _, _, _, -, rfl⟩ := receiverStep_frame h
    exact ⟨rfl, fun r _ _ _ => by cases r <;> rfl⟩
  | sender line =>
    obtain ⟨_, _, _, -, rfl⟩ := senderStep_frame h
    refine ⟨rfl, fun r p hr hp => ?_⟩
    cases r with
    | main => rfl
    | receiver => cases hp
    | sender => exact absurd rfl hr

theorem registering_frame (hr : a.role ≠ .main)
    (h : clientStep segment a c m = some (c', m')) : c'.registering = c.registering := by
  cases a with
  | main ok => exact absurd rfl hr
  | receiver =>
    obtain ⟨_, _, _, _, _, -, rfl⟩ := receiverStep_frame h
    rfl
  | sender line =>
    obtain ⟨_, _, _, -, rfl⟩ := senderStep_frame h
    rfl

end Threads

section Tables

variable {ι : Type*}

/-- The tables are within their bounds, the threads that fill them have left there what they think,
and the cursors are inside. -/
structure LogInv (w : World ι) : Prop where
  client_count : w.mem.chat.names.count ≤ MAX_CLIENTS
  message_count : w.mem.chat.log.count ≤ MAX_MESSAGES
  registering : ∀ i p, (w.clients i).registering = some p →
    p.Room MAX_CLIENTS (.print (w.clients i).name.text NAME_LEN_pos) w.mem.chat.names
  appending : ∀ i r p, (w.clients i).appending r = some p →
    p.Room MAX_MESSAGES ((w.clients i).message r) w.mem.chat.log
  cursor : ∀ i, (w.clients i).Cursor w.mem.chat.log

theorem Client.inside_of_registering {c : Client} {p : Phase} (h : c.registering = some p) :
    c.Inside .main := by
  cases hm : c.main <;> simp_all [Client.registering, Client.Inside]

theorem LogInv.start (names : ι → CharArray NAME_LEN) : LogInv (World.start names) where
  client_count := Nat.zero_le _
  message_count := Nat.zero_le _
  registering _ _ h := by cases h
  appending _ r _ h := by cases r <;> cases h
  cursor _ := ⟨Nat.le_refl _, Nat.le_refl _, rfl⟩

/-- A server's step leaves the tables, or comes before the semaphore is set and clears them. -/
theorem serverStep_tables {w w' : World ι} {ok : Bool} (hst : serverStep ok w = some w') :
    w'.clients = w.clients ∧
      (w'.mem.chat.names = w.mem.chat.names ∧ w'.mem.chat.log = w.mem.chat.log ∨
        w.server.Early ∧ w'.server.Early ∧ w'.mem.chat.client_count = 0) := by
  cases serverStep_move hst with
  | shmget hs hchat =>
    rcases hchat with rfl | rfl
    · exact ⟨rfl, .inl ⟨rfl, rfl⟩⟩
    · exact ⟨rfl, .inr ⟨by rw [hs]; trivial, trivial, rfl⟩⟩
  | memset hs => exact ⟨rfl, .inr ⟨by rw [hs]; trivial, trivial, rfl⟩⟩
  | shmat | running | semget | setval | failed | getchar | stopping | shmRmid | semRmid =>
    exact ⟨rfl, .inl ⟨rfl, rfl⟩⟩

theorem LogInv.server {w w' : World ι} {ok : Bool} (h : LogInv w) (hw : WorldInv w)
    (hw' : WorldInv w') (hst : serverStep ok w = some w') :
    LogInv w' ∧ w.mem.chat.log.Grows w'.mem.chat.log ∧
      w'.mem.chat.log.stored = w.mem.chat.log.stored := by
  obtain ⟨hcl, ⟨hn, hl⟩ | ⟨he, he', hn⟩⟩ := serverStep_tables hst
  · obtain ⟨h1, h2, h3, h4, h5⟩ := h
    rw [← hcl] at h3 h4 h5
    rw [← hn] at h1 h3
    rw [hl]
    rw [← hl] at h2 h4 h5
    exact ⟨⟨h1, h2, h3, h4, h5⟩, .refl _, rfl⟩
  · have hcount : w.mem.chat.log.count = 0 := (hw.unwritten he).2.1
    have hcount' : w'.mem.chat.log.count = 0 := (hw'.unwritten he').2.1
    have hgrows : w.mem.chat.log.Grows w'.mem.chat.log :=
      ⟨by omega, fun k hk => by omega⟩
    refine ⟨⟨hn.trans_le (Nat.zero_le _), hcount'.trans_le (Nat.zero_le _), fun i p hp => ?_,
      fun i r p hp => ?_, fun i => ?_⟩, hgrows, ?_⟩
    · exact absurd (Client.inside_of_registering hp) ((hw'.fresh he' i).not_inside _)
    · exact absurd (Client.inside_of_appending hp).1 ((hw'.fresh he' i).not_inside r)
    · rw [hcl]
      exact (h.cursor i).grow hgrows
    · unfold stored
      rw [hcount, hcount']
      rfl

theorem submitted_of_none {w : World ι} {i : ι} {a : Act}
    (h : (w.clients i).appending a.role = none) : submitted w (.client i a) = [] := by
  cases a with
  | main ok => cases hm : (w.clients i).main <;> simp_all [submitted, Client.appending, Act.role]
  | receiver => rfl
  | sender line =>
    cases hs : (w.clients i).sender <;> simp_all [submitted, Client.appending, Act.role]

theorem submitted_of_some {w : World ι} {i : ι} {a : Act} {p : Phase}
    (h : (w.clients i).appending a.role = some p) : submitted w (.client i a) =
      p.submits w.mem.chat.message_count ((w.clients i).message a.role) := by
  cases a with
  | main ok =>
    cases hm : (w.clients i).main <;>
      simp_all [submitted, Client.appending, Client.message, Act.role]
  | receiver => cases h
  | sender line =>
    cases hs : (w.clients i).sender <;>
      simp_all [submitted, Client.appending, Client.message, Act.role]

theorem LogInv.stored_take {w : World ι} (h : LogInv w) :
    (w.mem.chat.log.stored ++ []).take MAX_MESSAGES = w.mem.chat.log.stored := by
  rw [List.append_nil]
  exact List.take_of_length_le ((length_stored _).trans_le h.message_count)

variable [DecidableEq ι]

/-- Whoever appends after a thread's step is that thread, or did so before with that message. -/
theorem appending_other {w : World ι} {i j : ι} {a : Act} {c : Client} {m : Shared} {r : Role}
    {p : Phase} (hf : ∀ r', r' ≠ a.role → Frame r' (w.clients i) c)
    (hc : clientStep w.segment a (w.clients i) w.mem = some (c, m))
    (hp : (Function.update w.clients i c j).appending r = some p) :
    (j = i ∧ r = a.role ∧ c.appending a.role = some p) ∨
      ((j, r) ≠ (i, a.role) ∧ (w.clients j).appending r = some p ∧
        (Function.update w.clients i c j).message r = (w.clients j).message r) := by
  by_cases hj : j = i
  · subst hj
    rw [Function.update_self] at hp ⊢
    by_cases hr : r = a.role
    · exact .inl ⟨rfl, hr, hr ▸ hp⟩
    · exact .inr ⟨fun he => hr (Prod.mk.inj he).2, (hf r hr).appending ▸ hp,
        (clientStep_message hc).2 r p hr hp⟩
  · rw [Function.update_of_ne hj] at hp ⊢
    exact .inr ⟨fun he => hj (Prod.mk.inj he).1, hp, rfl⟩

/-- A step that fills neither table, or only that of the names. -/
theorem LogInv.quiet {w : World ι} {i : ι} {a : Act} {c : Client} {m : Shared} (h : LogInv w)
    (hf : ∀ r', r' ≠ a.role → Frame r' (w.clients i) c)
    (hc : clientStep w.segment a (w.clients i) w.mem = some (c, m))
    (hlog : m.chat.log = w.mem.chat.log)
    (hap : c.appending a.role = none ∨ c.appending a.role = some .test)
    (hnames : m.chat.names.count ≤ MAX_CLIENTS)
    (hreg : ∀ j p, (Function.update w.clients i c j).registering = some p →
      p.Room MAX_CLIENTS (.print (Function.update w.clients i c j).name.text NAME_LEN_pos)
        m.chat.names) :
    LogInv { w with mem := m, clients := Function.update w.clients i c } := by
  refine ⟨hnames, ?_, hreg, fun j r p hp => ?_, fun j => ?_⟩
  · show m.chat.log.count ≤ MAX_MESSAGES
    rw [hlog]
    exact h.message_count
  · show p.Room MAX_MESSAGES ((Function.update w.clients i c j).message r) m.chat.log
    rw [hlog]
    rcases appending_other hf hc hp with ⟨-, -, hself⟩ | ⟨-, hother, hmsg⟩
    · rcases hap with hap | hap
      · cases hap.symm.trans hself
      · cases hap.symm.trans hself
        trivial
    · rw [hmsg]
      exact h.appending j r p hother
  · show (Function.update w.clients i c j).Cursor m.chat.log
    rw [hlog]
    exact forall_update (P := (Client.Cursor · w.mem.chat.log))
      (clientStep_cursor hc (h.cursor i)) h.cursor j

/-- The names of those who register are as they were, unless this step is the main thread's. -/
theorem registering_other {w : World ι} {i j : ι} {a : Act} {c : Client} {m : Shared} {p : Phase}
    (hc : clientStep w.segment a (w.clients i) w.mem = some (c, m))
    (hp : (Function.update w.clients i c j).registering = some p) :
    (j = i ∧ a.role = .main ∧ c.registering = some p ∧ c.name = (w.clients i).name) ∨
      ((j = i → a.role ≠ .main) ∧ (w.clients j).registering = some p ∧
        (Function.update w.clients i c j).name = (w.clients j).name) := by
  by_cases hj : j = i
  · subst hj
    rw [Function.update_self] at hp ⊢
    have hname := (clientStep_message hc).1
    by_cases hr : a.role = .main
    · exact .inl ⟨rfl, hr, hp, hname⟩
    · exact .inr ⟨fun _ => hr, registering_frame hr hc ▸ hp, hname⟩
  · rw [Function.update_of_ne hj] at hp ⊢
    exact .inr ⟨fun he => absurd he hj, hp, rfl⟩

section Step

variable {w : World ι} {i : ι} {a : Act} {c : Client} {m : Shared} {p : Phase}

theorem LogInv.register (h : LogInv w) (hx : ∀ j k, w.Inside j → w.Inside k → j = k)
    (hf : ∀ r', r' ≠ a.role → Frame r' (w.clients i) c)
    (hc : clientStep w.segment a (w.clients i) w.mem = some (c, m)) (hr : a.role = .main)
    (hreg : (w.clients i).registering = some p)
    (hm : m = registerName (w.clients i).name p w.mem)
    (hnext : ∀ q, c.registering = some q →
      p.next MAX_CLIENTS w.mem.chat.client_count = some q)
    (hap : c.appending a.role = none ∨ c.appending a.role = some .test) :
    LogInv { w with mem := m, clients := Function.update w.clients i c } := by
  have hroom := h.registering i p hreg
  have hlog : m.chat.log = w.mem.chat.log := by rw [hm, log_registerName]
  refine h.quiet hf hc hlog hap ?_ fun j q hq => ?_
  · rw [hm, names_registerName]
    exact hroom.count_le h.client_count
  · rw [hm, names_registerName]
    rcases registering_other hc hq with ⟨rfl, -, hq, hname⟩ | ⟨hne, hq, -⟩
    · rw [Function.update_self, hname]
      exact hroom.next (hnext q hq)
    · -- another main thread would be inside as well
      have hj := hx j i ⟨_, Client.inside_of_registering hq⟩
        ⟨_, Client.inside_of_registering hreg⟩
      exact absurd hr (hne hj)

theorem LogInv.append (h : LogInv w) (hw : WorldInv w)
    (hx : ∀ j k, w.Inside j → w.Inside k → j = k)
    (hf : ∀ r', r' ≠ a.role → Frame r' (w.clients i) c)
    (hc : clientStep w.segment a (w.clients i) w.mem = some (c, m))
    (hp : (w.clients i).appending a.role = some p)
    (hm : m = appendMessage ((w.clients i).message a.role) p w.mem)
    (hnext : c.appending a.role = p.next MAX_MESSAGES w.mem.chat.message_count)
    (hmsg : c.message a.role = (w.clients i).message a.role)
    (hreg : a.role = .main → c.registering = none) :
    LogInv { w with mem := m, clients := Function.update w.clients i c } := by
  have hroom := h.appending i a.role p hp
  have hlog : m.chat.log = p.fill ((w.clients i).message a.role) w.mem.chat.log := by
    rw [hm, log_appendMessage]
  have hnames : m.chat.names = w.mem.chat.names := by rw [hm, names_appendMessage]
  have hgrows : w.mem.chat.log.Grows m.chat.log := hlog ▸ hroom.grows
  refine ⟨?_, ?_, fun j q hq => ?_, fun j r q hq => ?_, fun j => ?_⟩
  · show m.chat.names.count ≤ MAX_CLIENTS
    rw [hnames]
    exact h.client_count
  · show m.chat.log.count ≤ MAX_MESSAGES
    rw [hlog]
    exact hroom.count_le h.message_count
  · show q.Room MAX_CLIENTS _ m.chat.names
    rw [hnames]
    rcases registering_other hc hq with ⟨-, hr, hq, -⟩ | ⟨-, hq, hname⟩
    · cases (hreg hr).symm.trans hq
    · rw [hname]
      exact h.registering j q hq
  · show q.Room MAX_MESSAGES ((Function.update w.clients i c j).message r) m.chat.log
    rcases appending_other hf hc hq with ⟨rfl, rfl, hself⟩ | ⟨hne, hother, -⟩
    · rw [hlog, Function.update_self, hmsg]
      exact hroom.next (hnext.symm.trans hself)
    · exact absurd (appending_unique hw hx hp hother) hne
  · exact forall_update (P := (Client.Cursor · m.chat.log))
      ((clientStep_cursor hc (h.cursor i)).grow hgrows) (fun k => (h.cursor k).grow hgrows) j

theorem LogInv.client (h : LogInv w) (hw : WorldInv w)
    (hx : ∀ j k, w.Inside j → w.Inside k → j = k)
    (hc : clientStep w.segment a (w.clients i) w.mem = some (c, m)) :
    LogInv { w with mem := m, clients := Function.update w.clients i c } ∧
      w.mem.chat.log.Grows m.chat.log ∧
      m.chat.log.stored =
        (w.mem.chat.log.stored ++ submitted w (.client i a)).take MAX_MESSAGES := by
  have hf := clientStep_frame (hw.wf i) hc
  cases clientStep_fills hc with
  | register p hr hreg hm hnext hbefore hap =>
    have hlog : m.chat.log = w.mem.chat.log := by rw [hm, log_registerName]
    refine ⟨h.register hx hf hc hr hreg hm hnext hap, hlog ▸ .refl _, ?_⟩
    rw [hlog, submitted_of_none hbefore, h.stored_take]
  | append p hp hm hnext hmsg hreg =>
    have hroom := h.appending i a.role p hp
    have hlog : m.chat.log = p.fill ((w.clients i).message a.role) w.mem.chat.log := by
      rw [hm, log_appendMessage]
    refine ⟨h.append hw hx hf hc hp hm hnext hmsg hreg, hlog ▸ hroom.grows, ?_⟩
    rw [hlog, submitted_of_some hp, Phase.submits]
    rcases hn : p.next MAX_MESSAGES w.mem.chat.message_count with _ | q
    · rw [if_pos rfl]
      exact hroom.stored_end h.message_count hn
    · rw [if_neg (Option.some_ne_none q), h.stored_take]
      exact hroom.stored_on hn
  | neither hchat hbefore hap hreg =>
    have hlog : m.chat.log = w.mem.chat.log := congrArg Chat.log hchat
    refine ⟨h.quiet hf hc hlog hap ?_ fun j q hq => ?_, hlog ▸ .refl _, ?_⟩
    · rw [hchat]
      exact h.client_count
    · rw [hchat]
      rcases registering_other hc hq with ⟨-, hr, hq, -⟩ | ⟨-, hq, hname⟩
      · rcases hreg hr with hreg | hreg
        · cases hreg.symm.trans hq
        · cases hreg.symm.trans hq
          trivial
      · rw [hname]
        exact h.registering j q hq
    · rw [hlog, submitted_of_none hbefore, h.stored_take]

end Step

/-- What holds of the tables from the start on. -/
structure Logged (w : World ι) : Prop where
  world : WorldInv w
  log : LogInv w

omit [DecidableEq ι] in
theorem Logged.start (names : ι → CharArray NAME_LEN) : Logged (World.start names) :=
  ⟨.start names, .start names⟩

theorem Logged.step {w w' : World ι} {l : Label ι} (h : Logged w) (hx : Exclusive w)
    (hst : step w l = some w') :
    Logged w' ∧ w.mem.chat.log.Grows w'.mem.chat.log ∧
      w'.mem.chat.log.stored =
        (w.mem.chat.log.stored ++ submitted w l).take MAX_MESSAGES := by
  have hw' := h.world.step hst
  cases l with
  | server ok =>
    obtain ⟨hlog, hgrows, hstored⟩ := h.log.server h.world hw' hst
    exact ⟨⟨hw', hlog⟩, hgrows, hstored.trans h.log.stored_take.symm⟩
  | client i a =>
    obtain ⟨c, m, hc, rfl⟩ := step_client hst
    obtain ⟨hlog, hgrows, hstored⟩ := h.log.client h.world hx.inside hc
    exact ⟨⟨hw', hlog⟩, hgrows, hstored⟩

/-- Along a path through such states the log grows, by what is submitted. -/
theorem Logged.path {tr : List (World ι × Label ι)} {w w' : World ι} (h : Logged w)
    (hpath : shmLts.Path w tr w') (hx : ∀ p ∈ tr, Exclusive p.1) :
    Logged w' ∧ w.mem.chat.log.Grows w'.mem.chat.log ∧
      w'.mem.chat.log.stored =
        (w.mem.chat.log.stored ++ tr.flatMap fun p => submitted p.1 p.2).take MAX_MESSAGES := by
  induction hpath with
  | nil => exact ⟨h, .refl _, h.log.stored_take.symm⟩
  | cons hst _ ih =>
    obtain ⟨hl, hgrows, hstored⟩ := h.step (hx _ List.mem_cons_self) hst
    obtain ⟨ihl, ihg, ihs⟩ := ih hl fun q hq => hx q (List.mem_cons_of_mem _ hq)
    refine ⟨ihl, hgrows.trans ihg, ihs.trans ?_⟩
    rw [hstored, List.flatMap_cons, ← List.append_assoc, take_take_append]

theorem logged_run {tr : List (World ι × Label ι)} {w : World ι} (h : shmLts.Run tr w)
    (hx : ∀ p ∈ tr, Exclusive p.1) : Logged w := by
  obtain ⟨w₀, ⟨names, rfl⟩, hpath⟩ := h
  exact ((Logged.start names).path hpath hx).1

omit [DecidableEq ι] in
theorem Present.clear {w : World ι} {l : Label ι} (h : Present w l) : Clear w l := by
  cases l with
  | server ok => trivial
  | client i a => exact fun hl hn => absurd hn (h hl)

/-- While every `lock_sem` finds the semaphore, each state excludes. -/
theorem exclusive_of_present {tr : List (World ι × Label ι)} {w : World ι}
    (h : shmLts.Run tr w) (hp : ∀ p ∈ tr, Present p.1 p.2) : ∀ p ∈ tr, Exclusive p.1 := by
  rintro ⟨v, l⟩ hm
  obtain ⟨tr₁, tr₂, -, rfl, h₁, -, -⟩ := h.before hm
  exact exclusive_run h₁ fun p hm₁ => (hp p (List.mem_append_left _ hm₁)).clear

end Tables

section Lines

variable {ι : Type*} [DecidableEq ι] {segment : Bool} {c c' : Client} {m m' : Shared}

theorem typed_of_ne {w : World ι} {i : ι} {line : CharArray TEXT_LEN}
    (h : (w.clients i).sender ≠ .getnstr) : typed i w (.client i (.sender line)) = [] :=
  if_neg fun ht => h ht.2.1

/-- A line is pending from where the sender reads it to the end of its critical section. -/
theorem senderStep_pending {w : World ι} {i : ι} {line : CharArray TEXT_LEN}
    (h : senderStep line (w.clients i) w.mem = some (c', m')) :
    (w.clients i).pending ++ typed i w (.client i (.sender line)) =
      submitted w (.client i (.sender line)) ++ c'.pending := by
  have hquiet : (w.clients i).appending .sender = none →
      submitted w (.client i (.sender line)) = [] := submitted_of_none (a := .sender line)
  cases senderStep_move h with
  | top hm hpc =>
    rw [typed_of_ne (by simp [hm]), hquiet (by simp [Client.appending, hm])]
    unfold Client.pending
    rw [hm]
    rcases hpc with rfl | rfl
    · rfl
    · rfl
  | quit hm hquit =>
    rw [hquiet (by simp [Client.appending, hm]), Client.pending, hm]
    exact if_neg fun ht => ht.2.2.1 hquit
  | empty hm hempty =>
    rw [hquiet (by simp [Client.appending, hm]), Client.pending, hm]
    exact if_neg fun ht => ht.2.2.2 hempty
  | line hm hquit hempty =>
    rw [hquiet (by simp [Client.appending, hm]), Client.pending, hm]
    exact if_pos ⟨rfl, hm, hquit, hempty⟩
  | lock hm =>
    rw [typed_of_ne (by simp [hm]), hquiet (by simp [Client.appending, hm]), Client.pending, hm]
    rfl
  | append p hm hn | appended p hm hn =>
    have happ : (w.clients i).appending .sender = some p := by simp [Client.appending, hm]
    rw [typed_of_ne (by simp [hm]), submitted_of_some (a := .sender line) happ, Phase.submits,
      hn, Client.pending, hm]
    rfl
  | unlock hm =>
    rw [typed_of_ne (by simp [hm]), hquiet (by simp [Client.appending, hm]), Client.pending, hm]
    rfl

/-- What a step of any thread or of the server does to a client's lines. -/
theorem pending_step {w w' : World ι} {l : Label ι} (hw : WorldInv w) (hst : step w l = some w')
    (i : ι) : (w.clients i).pending ++ typed i w l =
      submittedBy i w l ++ (w'.clients i).pending := by
  cases l with
  | server ok =>
    rw [(serverStep_tables hst).1]
    exact List.append_nil _
  | client j a =>
    obtain ⟨c, m, hc, rfl⟩ := step_client hst
    by_cases hj : j = i
    · subst hj
      show _ = _ ++ (Function.update w.clients j c j).pending
      rw [Function.update_self]
      cases a with
      | main ok =>
        have hsame : c.pending = (w.clients j).pending := by
          obtain ⟨_, _, _, _, rfl, ⟨-, hs, -⟩ | ⟨hm, -, hs, -⟩⟩ := mainStep_frame hc
          · cases hs
            rfl
          · -- the sender is created
            have hoff := (hw.wf j (by simp [hm, MainPc.Spawned])).2
            cases hs
            unfold Client.pending
            rw [hoff]
        rw [hsame]
        exact List.append_nil _
      | receiver =>
        obtain ⟨_, _, _, _, _, -, rfl⟩ := receiverStep_frame hc
        exact List.append_nil _
      | sender line =>
        rw [senderStep_pending hc, submittedBy, if_pos rfl]
    · show _ = _ ++ (Function.update w.clients j c i).pending
      rw [Function.update_of_ne (Ne.symm hj)]
      cases a with
      | main ok => exact List.append_nil _
      | receiver => exact List.append_nil _
      | sender line =>
        rw [typed, if_neg fun ht => hj ht.1, submittedBy, if_neg hj]
        exact List.append_nil _

theorem pending_path {tr : List (World ι × Label ι)} {w w' : World ι} (hw : WorldInv w)
    (h : shmLts.Path w tr w') (i : ι) :
    (w.clients i).pending ++ tr.flatMap (fun p => typed i p.1 p.2) =
      tr.flatMap (fun p => submittedBy i p.1 p.2) ++ (w'.clients i).pending := by
  induction h with
  | nil => exact List.append_nil _
  | cons hst _ ih =>
    rw [List.flatMap_cons, List.flatMap_cons, ← List.append_assoc, pending_step hw hst i,
      List.append_assoc, ih (hw.step hst), List.append_assoc]

end Lines

section Run

variable {ι : Type*} [DecidableEq ι]

/-- Without room a thread that appends is still to test, and finds it out. -/
theorem sender_full {w w' : World ι} {i : ι} {line : CharArray TEXT_LEN} (h : Logged w)
    (hst : step w (.client i (.sender line)) = some w')
    (hfull : w.mem.chat.message_count = MAX_MESSAGES) : w'.mem.chat = w.mem.chat := by
  obtain ⟨c, m, hc, rfl⟩ := step_client hst
  cases clientStep_fills hc with
  | register p hr => cases hr
  | append p hp hm =>
    have hroom := h.log.appending i _ p hp
    have hno : ¬ w.mem.chat.log.count < MAX_MESSAGES := Nat.not_lt.mpr hfull.ge
    show m.chat = w.mem.chat
    cases p with
    | test => exact congrArg Shared.chat hm
    | slot => exact absurd hroom hno
    | write n => exact absurd hroom.2 hno
    | load => exact absurd hroom.1 hno
    | store n => exact absurd hroom.2.1 hno
  | neither hchat => exact hchat

/-- In a run in which every `lock_sem` finds the semaphore, the tables stay within their bounds and
only grow, each line is submitted once and stored once while there is room, and each receiver has
shown the first messages of the log. -/
theorem log_kept {tr : List (World ι × Label ι)} {w : World ι} (h : shmLts.Run tr w)
    (hp : ∀ p ∈ tr, Present p.1 p.2) : LogKept tr w := by
  have hx := exclusive_of_present h hp
  obtain ⟨w₀, ⟨names, rfl⟩, hpath⟩ := h
  obtain ⟨hw, -, hstored⟩ := (Logged.start names).path hpath hx
  refine
    { client_count := hw.log.client_count
      message_count := hw.log.message_count
      slots := ?_
      stored := hstored
      lines := fun i => pending_path (.start names) hpath i
      full := ?_
      last_seen := fun i => (hw.log.cursor i).last_seen
      shown := fun i => (hw.log.cursor i).shown
      displays := fun i j => ?_ }
  · rintro tr₁ tr₂ v rfl h₁ h₂
    have hv := logged_run h₁ fun p hm => hx p (List.mem_append_left _ hm)
    obtain ⟨-, hgrows, -⟩ := hv.path h₂ fun p hm => hx p (List.mem_append_right _ hm)
    exact ⟨hgrows.count, hgrows.slots⟩
  · intro v v' i line hm hst hfull
    have h₀ : shmLts.Run tr w := ⟨_, ⟨names, rfl⟩, hpath⟩
    obtain ⟨tr₁, tr₂, -, rfl, h₁, -, -⟩ := h₀.before hm
    exact sender_full (logged_run h₁ fun p hm => hx p (List.mem_append_left _ hm)) hst hfull
  · rw [(hw.log.cursor i).shown, (hw.log.cursor j).shown]
    exact firsts_prefix_or _ _ _

/-- Two clients join, each sends a line, and one shows what there is. -/
def showLabels : List (Label Bool) :=
  chatLabels ++ List.replicate 8 (.client false (.sender hi)) ++
    List.replicate 8 (.client true (.sender hi)) ++ List.replicate 7 (.client false .receiver)

theorem log_kept_two : ∃ (tr : _) (w : World Bool), shmLts.Run tr w ∧
    w.mem.chat.message_count = 4 ∧ (w.clients false).shown.map (·.text.text) =
      [ascii "ann joined", ascii "ann joined", ascii "hi", ascii "hi"] ∧ LogKept tr w := by
  have h : (Lts.exec step (World.start fun _ => ann) showLabels).map (fun w =>
      (w.mem.chat.message_count, (w.clients false).shown.map (·.text.text))) =
      some (4, [ascii "ann joined", ascii "ann joined", ascii "hi", ascii "hi"]) := by
    decide
  have hsem : ∀ p ∈ Lts.trace step (World.start fun _ => ann) showLabels,
      p.1.mem.sem = none → p.2.ofServer = true := by
    decide
  obtain ⟨w, hw, hf⟩ := Option.map_eq_some_iff.mp h
  have hrun : shmLts.Run _ w := ⟨_, ⟨_, rfl⟩, Lts.exec_path (fun _ _ _ => id) hw⟩
  refine ⟨_, w, hrun, (Prod.mk.inj hf).1, (Prod.mk.inj hf).2, log_kept hrun ?_⟩
  rintro ⟨v, l⟩ hp
  cases l with
  | server ok => trivial
  | client i a => exact fun _ hn => Bool.false_ne_true (hsem _ hp hn)

end Run

end EltexSystems.ShmChat
