import EltexSystems.Lib.Positions
import EltexSystems.PosixExchange

/-!
# Who takes which message

Until something is received, the queue holds at most the server's message, and from then on only
replies (`ExchangeInv`).  So what a process takes is the other side's exactly when it receives in
turn (`opposite_iff`), and in every run the two sides hear each other and not themselves exactly
when all do (`between_sides_iff`).
-/

namespace EltexSystems

open CStr Mem

variable {ι : Type*} {tr : List (Exchange ι × ExchangeLabel ι)} {s s' : Exchange ι}
  {l : ExchangeLabel ι} {p : Option ι} {m : Letter ι} {rest : List (Letter ι)}

/-- The server has not sent yet. -/
def ExchangePc.Early (pc : ExchangePc) : Prop := pc = .starting ∨ pc = .opened

instance (pc : ExchangePc) : Decidable pc.Early :=
  inferInstanceAs (Decidable (pc = .starting ∨ pc = .opened))

def NoneReceived (tr : List (Exchange ι × ExchangeLabel ι)) : Prop := ∀ u q, (u, .receive q) ∉ tr

/-- What a process has taken, and that it was sent. -/
def Took (tr : List (Exchange ι × ExchangeLabel ι)) (p : Option ι) (text : List UInt8) : Prop :=
  ∃ u m rest, (u, .receive p) ∈ tr ∧ u.queue = m :: rest ∧ text = exchangeText m.sender ∧
    ∃ v, (v, .send m.sender) ∈ tr

structure ExchangeInv (tr : List (Exchange ι × ExchangeLabel ι)) (s : Exchange ι) : Prop where
  early : (s.procs none).pc.Early → s.queue = []
  unread : NoneReceived tr → (∀ m ∈ s.queue, m.sender = none) ∧ s.queue.length ≤ 1 ∧
    ∀ c, (s.procs (some c)).pc.Early ∨ (s.procs (some c)).pc = .gone
  read : ¬ NoneReceived tr → (∀ m ∈ s.queue, m.sender ≠ none) ∧ ¬ (s.procs none).pc.Early
  once : (s.procs none).pc.Early ∨ (s.procs none).pc = .sent → ∀ u, (u, .receive none) ∉ tr
  letters : ∀ m ∈ s.queue, m.bytes = exchangeText m.sender ++ [0] ∧ ∃ u, (u, .send m.sender) ∈ tr
  took : ∀ p, (s.procs p).pc = .received → Took tr p (cstr (s.procs p).buf)

section Memory

theorem exchangeText_ne_zero (p : Option ι) : ∀ b ∈ exchangeText p, b ≠ 0 := by
  cases p with
  | none => exact ne_zero_of_all (p := ascii "Hi!") (by decide)
  | some c => exact ne_zero_of_all (p := ascii "Hello!") (by decide)

theorem cstr_memcpy_string {text : List UInt8} (h : ∀ b ∈ text, b ≠ 0) (buf : List UInt8) :
    cstr (memcpy buf 0 (text ++ [0]) (text.length + 1)) = text := by
  unfold memcpy
  rw [List.take_zero, List.nil_append, List.take_of_length_le (by simp), List.append_assoc]
  exact (cstr_append_nul _ _).trans (cstr_of_ne_zero h)

end Memory

section Trace

theorem Took.append {text : List UInt8} (h : Took tr p text)
    (tr' : List (Exchange ι × ExchangeLabel ι)) : Took (tr ++ tr') p text := by
  obtain ⟨u, m, rest, hu, hq, ht, v, hv⟩ := h
  exact ⟨u, m, rest, List.mem_append_left _ hu, hq, ht, v, List.mem_append_left _ hv⟩

theorem receive_mem_concat (hl : ∀ q, l ≠ .receive q) {u : Exchange ι} {q : Option ι} :
    (u, .receive q) ∈ tr ++ [(s, l)] ↔ (u, .receive q) ∈ tr := by
  rw [List.mem_append, List.mem_singleton, or_iff_left]
  intro heq
  exact hl q (Prod.ext_iff.mp heq).2.symm

theorem noneReceived_concat (hl : ∀ q, l ≠ .receive q) :
    NoneReceived (tr ++ [(s, l)]) ↔ NoneReceived tr :=
  forall₂_congr fun _ _ => not_congr (receive_mem_concat hl)

end Trace

section Steps

/-- A step of a process that neither sends nor receives. -/
theorem ExchangeInv.quiet (h : ExchangeInv tr s) (hl : ∀ q, l ≠ .receive q)
    (hqueue : s'.queue = s.queue ∨ s'.queue = []) (hothers : ∀ q ≠ p, s'.procs q = s.procs q)
    (hnot : (s'.procs p).pc ≠ .received)
    (hserver : p = none → ((s'.procs none).pc.Early → (s.procs none).pc.Early) ∧
      (s'.procs none).pc ≠ .sent)
    (hclient : p ≠ none → NoneReceived tr → (s'.procs p).pc.Early ∨ (s'.procs p).pc = .gone) :
    ExchangeInv (tr ++ [(s, l)]) s' := by
  have hsub : ∀ m ∈ s'.queue, m ∈ s.queue := by
    intro m hm
    rcases hqueue with hq | hq
    · exact hq ▸ hm
    · rw [hq] at hm
      cases hm
  have hearly : (s'.procs none).pc.Early → (s.procs none).pc.Early := by
    intro he
    by_cases hp : p = none
    · exact (hserver hp).1 he
    · rwa [hothers none (Ne.symm hp)] at he
  refine ⟨fun he => ?_, fun hno => ?_, fun hyes => ?_, fun hpc u hu => ?_, fun m hm => ?_,
    fun q hq => ?_⟩
  · rcases hqueue with hq | hq
    · exact hq.trans (h.early (hearly he))
    · exact hq
  · rw [noneReceived_concat hl] at hno
    obtain ⟨h1, h2, h3⟩ := h.unread hno
    refine ⟨fun m hm => h1 m (hsub m hm), ?_, fun c => ?_⟩
    · rcases hqueue with hq | hq
      · exact hq ▸ h2
      · rw [hq]
        exact Nat.zero_le 1
    · by_cases hc : some c = p
      · rw [hc]
        exact hclient (hc ▸ Option.some_ne_none c) hno
      · rw [hothers _ hc]
        exact h3 c
  · rw [noneReceived_concat hl] at hyes
    exact ⟨fun m hm => (h.read hyes).1 m (hsub m hm), fun he => (h.read hyes).2 (hearly he)⟩
  · rw [receive_mem_concat hl] at hu
    refine h.once ?_ u hu
    by_cases hp : p = none
    · exact .inl ((hserver hp).1 (hpc.resolve_right (hserver hp).2))
    · rwa [hothers none (Ne.symm hp)] at hpc
  · obtain ⟨hb, u, hu⟩ := h.letters m (hsub m hm)
    exact ⟨hb, u, List.mem_append_left _ hu⟩
  · have hqp : q ≠ p := by
      rintro rfl
      exact hnot hq
    rw [hothers q hqp] at hq ⊢
    exact (h.took q hq).append _

theorem procs_set_self [DecidableEq ι] (s : Exchange ι) (p : Option ι) (pc : ExchangePc)
    (buf : List UInt8) : (s.set p pc buf).procs p = ⟨pc, buf⟩ := Function.update_self ..

theorem pc_set_self [DecidableEq ι] (s : Exchange ι) (p : Option ι) (pc : ExchangePc)
    (buf : List UInt8) : ((s.set p pc buf).procs p).pc = pc := by
  rw [procs_set_self]

theorem procs_set_of_ne [DecidableEq ι] {q : Option ι} (h : q ≠ p) (s : Exchange ι)
    (pc : ExchangePc) (buf : List UInt8) :
    (s.set p pc buf).procs q = s.procs q := Function.update_of_ne h ..

/-- A process that sends has not read anything if it is the server, and has if it is a client. -/
theorem ExchangeInv.sends (h : ExchangeInv tr s) (hpc : (s.procs p).pc = sendsAt p) :
    (p = none → s.queue = []) ∧ (NoneReceived tr → p = none) ∧ (¬ NoneReceived tr → p ≠ none) := by
  refine ⟨?_, fun hno => ?_, ?_⟩
  · rintro rfl
    exact h.early (.inr hpc)
  · rcases p with _ | c
    · rfl
    · have hc := (h.unread hno).2.2 c
      rw [hpc] at hc
      exact absurd (show ExchangePc.printed.Early ∨ ExchangePc.printed = .gone from hc) (by decide)
  · rintro hyes rfl
    exact (h.read hyes).2 (.inr hpc)

variable [DecidableEq ι]

theorem ExchangeInv.send (h : ExchangeInv tr s) (hpc : (s.procs p).pc = sendsAt p) {m : Letter ι}
    (hm : m = ⟨p, exchangeText p ++ [0]⟩) {buf : List UInt8}
    (hqueue : s'.queue = s.queue ++ [m]) (hprocs : s'.procs = (s.set p .sent buf).procs) :
    ExchangeInv (tr ++ [(s, .send p)]) s' := by
  obtain ⟨hempty, hfirst, hreply⟩ := h.sends hpc
  have hl : ∀ q, ExchangeLabel.send p ≠ .receive q := fun q heq => by cases heq
  have hself : (s'.procs p).pc = .sent := by rw [hprocs, pc_set_self]
  have hothers : ∀ q ≠ p, s'.procs q = s.procs q := fun q hq => by
    rw [hprocs, procs_set_of_ne hq]
  have hmem : ∀ m' ∈ s'.queue, m' ∈ s.queue ∨ m' = m := by
    intro m' hm'
    rw [hqueue] at hm'
    exact (List.mem_append.mp hm').imp_right List.mem_singleton.mp
  have hearly : ¬ (s'.procs none).pc.Early := by
    intro he
    by_cases hno : NoneReceived tr
    · obtain rfl := hfirst hno
      rw [hself] at he
      exact absurd he (by decide)
    · rw [hothers none (Ne.symm (hreply hno))] at he
      exact (h.read hno).2 he
  refine ⟨fun he => absurd he hearly, fun hno => ?_, fun hyes => ?_, fun hpc' u hu => ?_,
    fun m' hm' => ?_, fun q hq => ?_⟩
  · rw [noneReceived_concat hl] at hno
    obtain rfl := hfirst hno
    rw [hqueue, hempty rfl]
    refine ⟨fun m' hm' => ?_, le_rfl, fun c => ?_⟩
    · rw [List.mem_singleton.mp hm', hm]
    · rw [hothers _ (Option.some_ne_none c)]
      exact (h.unread hno).2.2 c
  · rw [noneReceived_concat hl] at hyes
    refine ⟨fun m' hm' => ?_, hearly⟩
    rcases hmem m' hm' with hm' | rfl
    · exact (h.read hyes).1 m' hm'
    · rw [hm]
      exact hreply hyes
  · rw [receive_mem_concat hl] at hu
    by_cases hp : p = none
    · subst hp
      exact h.once (.inl (.inr hpc)) u hu
    · rw [hothers none (Ne.symm hp)] at hpc'
      exact h.once hpc' u hu
  · rcases hmem m' hm' with hm' | rfl
    · obtain ⟨hb, u, hu⟩ := h.letters m' hm'
      exact ⟨hb, u, List.mem_append_left _ hu⟩
    · rw [hm]
      exact ⟨rfl, s, List.mem_append_right _ (List.mem_singleton_self _)⟩
  · have hqp : q ≠ p := by
      rintro rfl
      rw [hself] at hq
      cases hq
    rw [hothers q hqp] at hq ⊢
    exact (h.took q hq).append _

theorem ExchangeInv.receive (h : ExchangeInv tr s) (hpc : (s.procs p).pc = receivesAt p)
    (hm : s.queue = m :: rest) (hqueue : s'.queue = rest)
    (hprocs : s'.procs = (s.set p .received
      (memcpy (s.procs p).buf 0 m.bytes m.bytes.length)).procs) :
    ExchangeInv (tr ++ [(s, .receive p)]) s' := by
  have hself : (s'.procs p).pc = .received := by rw [hprocs, pc_set_self]
  have hothers : ∀ q ≠ p, s'.procs q = s.procs q := fun q hq => by
    rw [hprocs, procs_set_of_ne hq]
  have hmem : m ∈ s.queue := hm ▸ List.mem_cons_self
  have hsub : ∀ m' ∈ s'.queue, m' ∈ s.queue := fun m' hm' => by
    rw [hm]
    exact List.mem_cons_of_mem _ (hqueue ▸ hm')
  have hearly : ¬ (s'.procs none).pc.Early := by
    intro he
    by_cases hp : p = none
    · subst hp
      rw [hself] at he
      exact absurd he (by decide)
    · rw [hothers none (Ne.symm hp)] at he
      rw [h.early he] at hm
      cases hm
  have hhere : (s, ExchangeLabel.receive p) ∈ tr ++ [(s, .receive p)] :=
    List.mem_append_right _ (List.mem_singleton_self _)
  refine ⟨fun he => absurd he hearly, fun hno => absurd hhere (hno s p), fun _ => ⟨?_, hearly⟩,
    fun hpc' u hu => ?_, fun m' hm' => ?_, fun q hq => ?_⟩
  · intro m' hm'
    by_cases hno : NoneReceived tr
    · have hlen := (h.unread hno).2.1
      rw [hm, List.length_cons] at hlen
      rw [hqueue, List.length_eq_zero_iff.mp (show rest.length = 0 by omega)] at hm'
      cases hm'
    · exact (h.read hno).1 m' (hsub m' hm')
  · by_cases hp : p = none
    · subst hp
      rw [hself] at hpc'
      exact absurd hpc' (by decide)
    · rw [hothers none (Ne.symm hp)] at hpc'
      rcases List.mem_append.mp hu with hu | hu
      · exact h.once hpc' u hu
      · cases List.mem_singleton.mp hu
        exact hp rfl
  · obtain ⟨hb, u, hu⟩ := h.letters m' (hsub m' hm')
    exact ⟨hb, u, List.mem_append_left _ hu⟩
  · by_cases hqp : q = p
    · subst hqp
      obtain ⟨hb, v, hv⟩ := h.letters m hmem
      refine ⟨s, m, rest, hhere, hm, ?_, v, List.mem_append_left _ hv⟩
      rw [hprocs, procs_set_self, hb, List.length_append]
      exact cstr_memcpy_string (exchangeText_ne_zero m.sender) _
    · rw [hothers q hqp] at hq ⊢
      exact (h.took q hq).append _

/-- A process that is gone. -/
theorem ExchangeInv.gone (h : ExchangeInv tr s) (hl : ∀ q, l ≠ .receive q)
    (hqueue : s'.queue = s.queue) {buf : List UInt8}
    (hprocs : s'.procs = (s.set p .gone buf).procs) : ExchangeInv (tr ++ [(s, l)]) s' := by
  have hself : (s'.procs p).pc = .gone := by rw [hprocs, pc_set_self]
  refine h.quiet (p := p) hl (.inl hqueue) (fun q hq => by rw [hprocs, procs_set_of_ne hq]) ?_
    (fun hp => ?_) (fun _ _ => ?_)
  · rw [hself]
    decide
  · subst hp
    rw [hself]
    exact ⟨fun he => absurd he (by decide), by decide⟩
  · rw [hself]
    exact .inr rfl

theorem ExchangeInv.step (h : ExchangeInv tr s) (hst : exchangeLts.step s l s') :
    ExchangeInv (tr ++ [(s, l)]) s' := by
  cases hst with
  | create hpc =>
    refine h.quiet (p := none) (fun q heq => by cases heq) (.inr rfl)
      (fun q hq => procs_set_of_ne hq ..) ?_ (fun _ => ⟨fun _ => .inl hpc, ?_⟩)
      (fun hp => absurd rfl hp)
    · rw [pc_set_self]
      decide
    · rw [pc_set_self]
      decide
  | @mqOpen c hpc =>
    refine h.quiet (p := some c) (fun q heq => by cases heq) (.inl rfl)
      (fun q hq => procs_set_of_ne hq ..) ?_ (fun hp => by cases hp) (fun _ _ => ?_)
    · rw [pc_set_self]
      decide
    · rw [pc_set_self]
      exact .inl (.inr rfl)
  | @send p hpc =>
    refine h.send hpc ?_ rfl rfl
    rw [strcpy, cstr_memcpy_string (exchangeText_ne_zero p)]
  | receive hpc hm => exact h.receive hpc hm rfl rfl
  | @print p hpc =>
    refine h.quiet (p := p) (fun q heq => by cases heq) (.inl rfl)
      (fun q hq => procs_set_of_ne hq ..) ?_ (fun hp => ?_) (fun hp hno => ?_)
    · rw [pc_set_self]
      decide
    · subst hp
      rw [pc_set_self]
      exact ⟨fun he => absurd he (by decide), by decide⟩
    · obtain ⟨c, rfl⟩ := Option.ne_none_iff_exists'.mp hp
      have hc := (h.unread hno).2.2 c
      rw [hpc] at hc
      exact absurd hc (by decide)
  | @close p hpc => exact h.gone (fun q heq => by cases heq) rfl rfl
  | @fail p hpc => exact h.gone (fun q heq => by cases heq) rfl rfl

theorem exchangeInv_run (h : exchangeLts.Run tr s) : ExchangeInv tr s := by
  refine h.induction (P := ExchangeInv) ?_ fun tr s l t _ hI hst => hI.step hst
  rintro s ⟨-, hqueue, hpc⟩
  refine ⟨fun _ => hqueue, fun _ => ⟨fun m hm => ?_, ?_, fun c => .inl (.inl (hpc _))⟩,
    fun hyes => ?_, fun _ u hu => ?_, fun m hm => ?_, fun p hp => ?_⟩
  · rw [hqueue] at hm
    cases hm
  · rw [hqueue]
    exact Nat.zero_le 1
  · exact absurd (fun _ _ hu => nomatch hu) hyes
  · cases hu
  · rw [hqueue] at hm
    cases hm
  · rw [hpc] at hp
    cases hp

end Steps

section Sides

/-- What a process takes is the other side's when it receives in turn, and its own otherwise. -/
theorem opposite_iff (h : ExchangeInv tr s) (hpc : (s.procs p).pc = receivesAt p)
    (hm : s.queue = m :: rest) : Opposite m.sender p ↔
      (p = none → ∃ u c, (u, .receive (some c)) ∈ tr) ∧ (p ≠ none → NoneReceived tr) := by
  have hmem : m ∈ s.queue := hm ▸ List.mem_cons_self
  by_cases hno : NoneReceived tr
  · have hsender := (h.unread hno).1 m hmem
    rw [Opposite, hsender]
    refine ⟨fun hopp => ⟨fun hp => absurd hp (hopp.mp rfl), fun _ => hno⟩, fun hturn => ?_⟩
    refine ⟨fun _ hp => ?_, fun _ => rfl⟩
    obtain ⟨u, c, hu⟩ := hturn.1 hp
    exact hno u (some c) hu
  · have hsender := (h.read hno).1 m hmem
    have hopp : Opposite m.sender p ↔ p = none :=
      ⟨fun hopp => by_contra fun hp => hsender (hopp.mpr hp),
        fun hp => ⟨fun hs => absurd hs hsender, fun hne => absurd hp hne⟩⟩
    rw [hopp]
    refine ⟨?_, fun hturn => by_contra fun hp => hno (hturn.2 hp)⟩
    rintro rfl
    refine ⟨fun _ => ?_, fun hne => absurd rfl hne⟩
    have hread : ∃ u q, (u, ExchangeLabel.receive q) ∈ tr := by
      by_contra hnot
      exact hno fun u q hu => hnot ⟨u, q, hu⟩
    obtain ⟨u, q, hu⟩ := hread
    rcases q with _ | c
    · exact absurd hu (h.once (.inr hpc) u)
    · exact ⟨u, c, hu⟩

variable [DecidableEq ι]

theorem receive_step (h : ExchangeStep s (.receive p) s') :
    (s.procs p).pc = receivesAt p ∧ ∃ m rest, s.queue = m :: rest := by
  cases h with
  | receive hpc hm => exact ⟨hpc, _, _, hm⟩

/-- In every run the sides hear each other exactly when every process receives in turn. -/
theorem between_sides_iff (h : exchangeLts.Run tr s) : BetweenSides tr ↔ InTurn tr := by
  constructor
  · rintro hall tr₁ u p tr₂ rfl
    obtain ⟨t, hrun, hst, -⟩ := h.through
    obtain ⟨hpc, m, rest, hm⟩ := receive_step hst
    exact (opposite_iff (exchangeInv_run hrun) hpc hm).mp
      (hall.consumed u p m rest (List.mem_append_right _ List.mem_cons_self) hm)
  · intro hturn
    have hconsumed : ∀ u p m rest, (u, .receive p) ∈ tr → u.queue = m :: rest →
        Opposite m.sender p := by
      intro u p m rest hu hm
      obtain ⟨tr₁, tr₂, t, rfl, hrun, hst, -⟩ := h.before hu
      exact (opposite_iff (exchangeInv_run hrun) (receive_step hst).1 hm).mpr
        (hturn tr₁ u p tr₂ rfl)
    refine ⟨hconsumed, ?_⟩
    rintro tr₁ u p tr₂ rfl
    obtain ⟨t, hrun, hst, -⟩ := h.through
    have hpc : (u.procs p).pc = .received := by
      cases hst with
      | print hpc => exact hpc
    obtain ⟨v, m, rest, hv, hm, htext, v', hv'⟩ := (exchangeInv_run hrun).took p hpc
    exact ⟨v', m.sender, hv', hconsumed v p m rest (List.mem_append_left _ hv) hm, htext⟩

/-- Nothing is opened yet, and every buffer is empty. -/
def noExchange : Exchange Unit := ⟨false, [], fun _ => ⟨.starting, []⟩⟩

/-- A client takes the server's message. -/
theorem between_sides_iff_one_client : ∃ (tr : _) (s : Exchange Unit), exchangeLts.Run tr s ∧
    (∃ u, (u, .receive (some ())) ∈ tr) ∧ BetweenSides tr := by
  have h0 : exchangeLts.Run [] noExchange := ⟨_, ⟨rfl, rfl, fun _ => rfl⟩, .nil _⟩
  have h1 := h0.snoc (.create rfl)
  have h2 := h1.snoc (.mqOpen (c := ()) rfl rfl)
  have h3 := h2.snoc (.send (p := none) rfl (by decide))
  have h4 := h3.snoc (.receive (p := some ()) rfl rfl)
  refine ⟨_, _, h4, ⟨_, List.mem_append_right _ (List.mem_singleton_self _)⟩,
    (between_sides_iff h4).mpr ?_⟩
  rintro tr₁ u p tr₂ htr
  rcases Positions.concat_eq_append_cons htr with ⟨-, rfl, hlast⟩ | ⟨tr₃, -, hbefore⟩
  · cases hlast
    refine ⟨(fun hp => nomatch hp), fun _ u q => ?_⟩
    simp
  · have hmem : (u, ExchangeLabel.receive p) ∈ tr₁ ++ (u, .receive p) :: tr₃ :=
      List.mem_append_right _ List.mem_cons_self
    rw [← hbefore] at hmem
    simp at hmem

/-- The server receives before any client is there: it takes its own message. -/
theorem server_takes_own : ∃ (tr : _) (s : Exchange Unit), exchangeLts.Run tr s ∧
    (s.procs none).pc = .received ∧ cstr (s.procs none).buf = ascii "Hi!" ∧ ¬ BetweenSides tr := by
  have h0 : exchangeLts.Run [] noExchange := ⟨_, ⟨rfl, rfl, fun _ => rfl⟩, .nil _⟩
  have h1 := h0.snoc (.create rfl)
  have h2 := h1.snoc (.send (p := none) rfl (by decide))
  have h3 := h2.snoc (.receive (p := none) rfl rfl)
  refine ⟨_, _, h3, rfl, by decide, fun hall => ?_⟩
  have hopp := hall.consumed _ none _ [] (List.mem_append_right _ (List.mem_singleton_self _)) rfl
  exact hopp.mp rfl rfl

end Sides

end EltexSystems
