import EltexSystems.Lib.Refinement
import EltexSystems.ParentChild
import EltexSystems.Proofs.Fifo

/-!
# A pipe is a FIFO of two

Behind `fork`, the parent and the child of `channels/pipe.c` do what a server and a client do that
meet at a FIFO, but for the parent's `wait` (`refines`), as the descriptors that each holds follow
from its place (`inv_step`).  So every run goes through states that the FIFO's programs reach, with
the message or nothing printed (`pipe_refines`), and comes to its end as theirs do
(`pipe_exchange`).
-/

namespace EltexSystems.ParentChild

open CStr Lts Mem
open Fifo (BUF_SIZE msg)

variable {s t : State} {l : Label} {w : Who}

section Descriptors

/-- Whether a process has the read end open. -/
def holdsRead : Who → Pc → Bool
  | .parent, .fork | .parent, .closeOther => true
  | .child, .closeOther | .child, .transfer | .child, .print | .child, .close => true
  | _, _ => false

def holdsWrite : Who → Pc → Bool
  | .parent, .fork | .parent, .closeOther | .parent, .transfer | .parent, .close => true
  | .child, .closeOther => true
  | _, _ => false

/-- The places of a child. -/
def OfChild (pc : Pc) : Prop :=
  pc = .closeOther ∨ pc = .transfer ∨ pc = .print ∨ pc = .close ∨ pc = .exit ∨ pc = .exited 0

/-- Where the parent is before the child is there, and the processes behind that. -/
def Places (parent child : Pc) : Prop :=
  match parent with
  | .pipe | .fork | .exited 1 => child = .unborn
  | .closeOther | .transfer | .close | .wait | .killed => OfChild child
  | .exited 0 => child = .exited 0
  | _ => False

/-- The descriptors are those that the processes need, and without one there is no data. -/
structure Inv (s : State) : Prop where
  reads : ∀ w, s.reads w = holdsRead w (s.pc w)
  writes : ∀ w, s.writes w = holdsWrite w (s.pc w)
  places : Places (s.pc .parent) (s.pc .child)
  gone : ¬ s.Open → s.pipe = .empty

theorem settle_gone (h : ¬ s.settle.Open) : s.settle.pipe = .empty := if_neg h

theorem settle_eq (h : s.Open ∨ s.pipe = .empty) : s.settle = s := by
  unfold State.settle
  split_ifs with hopen
  · rfl
  · rw [← h.resolve_left hopen]

@[simp] theorem goto_self {pc : Pc} : (s.goto w pc).pc w = pc := Function.update_self ..

/-- A process goes on, its descriptors those of its new place. -/
theorem Inv.moves (h : Inv s) {pc : Pc} (hpc : t.pc = Function.update s.pc w pc)
    (hreads : ∀ w', t.reads w' = if w' = w then holdsRead w pc else s.reads w')
    (hwrites : ∀ w', t.writes w' = if w' = w then holdsWrite w pc else s.writes w')
    (hplaces : Places (t.pc .parent) (t.pc .child)) (hgone : ¬ t.Open → t.pipe = .empty) :
    Inv t := by
  refine ⟨fun w' => ?_, fun w' => ?_, hplaces, hgone⟩
  · rw [hreads, hpc]
    rcases eq_or_ne w' w with rfl | hne
    · rw [if_pos rfl, Function.update_self]
    · rw [if_neg hne, Function.update_of_ne hne, h.reads]
  · rw [hwrites, hpc]
    rcases eq_or_ne w' w with rfl | hne
    · rw [if_pos rfl, Function.update_self]
    · rw [if_neg hne, Function.update_of_ne hne, h.writes]

theorem Inv.same_reads (h : Inv s) {pc : Pc} (hr : holdsRead w pc = holdsRead w (s.pc w))
    (w' : Who) : s.reads w' = if w' = w then holdsRead w pc else s.reads w' := by
  split_ifs with he
  · rw [he, hr, h.reads]
  · rfl

theorem Inv.same_writes (h : Inv s) {pc : Pc} (hw : holdsWrite w pc = holdsWrite w (s.pc w))
    (w' : Who) : s.writes w' = if w' = w then holdsWrite w pc else s.writes w' := by
  split_ifs with he
  · rw [he, hw, h.writes]
  · rfl

theorem Inv.ends (h : Inv s) {pc : Pc} (hr : holdsRead w pc = false) (hw : holdsWrite w pc = false)
    (hplaces : Places ((s.goto w pc).pc .parent) ((s.goto w pc).pc .child)) :
    Inv (s.ends w pc) :=
  h.moves rfl
    (fun w' => (Function.update_apply ..).trans (by rw [hr]; rfl))
    (fun w' => (Function.update_apply ..).trans (by rw [hw]; rfl)) hplaces settle_gone

/-- A process goes on that has descriptors and keeps them. -/
theorem Inv.keeps (h : Inv s) {pc : Pc} (hpc : t.pc = Function.update s.pc w pc)
    (hreads : t.reads = s.reads) (hwrites : t.writes = s.writes)
    (hr : holdsRead w pc = holdsRead w (s.pc w)) (hw : holdsWrite w pc = holdsWrite w (s.pc w))
    (hplaces : Places (t.pc .parent) (t.pc .child))
    (hopen : holdsRead w pc = true ∨ holdsWrite w pc = true) : Inv t := by
  refine h.moves hpc (by rw [hreads]; exact h.same_reads hr)
    (by rw [hwrites]; exact h.same_writes hw) hplaces fun hno => absurd ⟨w, ?_⟩ hno
  rwa [hreads, hwrites, h.reads, h.writes, ← hr, ← hw]

/-- A process ends that has nothing open. -/
theorem Inv.ends_eq (h : Inv s) {pc : Pc} (hr : holdsRead w (s.pc w) = false)
    (hw : holdsWrite w (s.pc w) = false) : s.ends w pc = s.goto w pc := by
  have hreads : Function.update s.reads w false = s.reads :=
    Function.update_eq_self_iff.mpr (((h.reads w).trans hr).symm)
  have hwrites : Function.update s.writes w false = s.writes :=
    Function.update_eq_self_iff.mpr (((h.writes w).trans hw).symm)
  have hsame : ((s.goto w pc).setReads w false).setWrites w false = s.goto w pc := by
    unfold State.setReads State.setWrites State.goto
    simp only [hreads, hwrites]
  rw [State.ends, hsame]
  exact settle_eq ((em _).imp_right h.gone)

/-- A child that is there goes on. -/
theorem Places.child {parent pc pc' : Pc} (h : Places parent pc) (hpc : pc ≠ .unborn)
    (hpc' : pc ≠ .exited 0) (hc : OfChild pc') : Places parent pc' := by
  unfold Places at h ⊢
  split at h
  all_goals first | exact absurd h hpc | exact absurd h hpc' | exact hc | exact h

theorem Inv.child_goes (h : Inv s) {old : Pc} (pc : Pc) (hpc : s.pc .child = old)
    (hold : old ≠ .unborn ∧ old ≠ .exited 0) (hc : OfChild pc) : Places (s.pc .parent) pc :=
  h.places.child (hpc ▸ hold.1) (hpc ▸ hold.2) hc

theorem inv_step (h : Inv s) (hst : Step s l t) : Inv t := by
  have hplaces := h.places
  cases hst with
  | pipe hpc =>
    rw [hpc] at hplaces
    exact h.moves (w := .parent) rfl (fun w' => Function.update_apply ..)
      (fun w' => Function.update_apply ..) hplaces fun hno => absurd ⟨.parent, .inl rfl⟩ hno
  | pipeFails hpc | forkFails hpc =>
    rw [hpc] at hplaces
    exact h.ends rfl rfl hplaces
  | fork hpc =>
    have hreads : s.reads .parent = true := by rw [h.reads, hpc]; rfl
    have hwrites : s.writes .parent = true := by rw [h.writes, hpc]; rfl
    refine ⟨fun w => hreads.trans ?_, fun w => hwrites.trans ?_, .inl rfl, fun hno => ?_⟩
    · cases w <;> rfl
    · cases w <;> rfl
    · exact absurd ⟨.parent, .inl hreads⟩ hno
  | closeRead hpc =>
    rw [hpc] at hplaces
    exact h.moves (w := .parent) rfl (fun w' => Function.update_apply ..)
      (h.same_writes (by rw [hpc]; rfl)) hplaces settle_gone
  | closeWrite hpc =>
    exact h.moves (w := .child) rfl (h.same_reads (by rw [hpc]; rfl))
      (fun w' => Function.update_apply ..)
      (h.child_goes .transfer hpc (by simp) (by simp [OfChild])) settle_gone
  | write hpc =>
    rw [hpc] at hplaces
    exact h.keeps (w := .parent) rfl rfl rfl (by rw [hpc]; rfl) (by rw [hpc]; rfl) hplaces
      (.inr rfl)
  | sigpipe hpc =>
    rw [hpc] at hplaces
    exact h.ends rfl rfl hplaces
  | read hpc | eof hpc =>
    exact h.keeps (w := .child) rfl rfl rfl (by rw [hpc]; rfl) (by rw [hpc]; rfl)
      (h.child_goes .print hpc (by simp) (by simp [OfChild])) (.inl rfl)
  | print hpc =>
    exact h.keeps (w := .child) rfl rfl rfl (by rw [hpc]; rfl) (by rw [hpc]; rfl)
      (h.child_goes .close hpc (by simp) (by simp [OfChild])) (.inl rfl)
  | parentCloses hpc =>
    rw [hpc] at hplaces
    exact h.moves (w := .parent) rfl (h.same_reads (by rw [hpc]; rfl))
      (fun w' => Function.update_apply ..) hplaces settle_gone
  | childCloses hpc =>
    exact h.moves (w := .child) rfl (fun w' => Function.update_apply ..)
      (h.same_writes (by rw [hpc]; rfl))
      (h.child_goes .exit hpc (by simp) (by simp [OfChild]))
      settle_gone
  | exit hpc =>
    exact h.ends rfl rfl (h.child_goes (.exited 0) hpc (by simp) (by simp [OfChild]))
  | wait hpc hpc' =>
    rw [hpc, hpc'] at hplaces
    refine h.ends rfl rfl (hpc'.trans ?_)
    rcases hplaces with he | he | he | he | he | he <;> first | exact he | cases he

end Descriptors

section View

def serverPc : Pc → Fifo.Pc
  | .closeOther => .waits 1
  | .transfer => .works
  | .close => .closes
  | .killed => .killed
  | _ => .exited 0

def clientPc : Pc → Fifo.Pc
  | .closeOther => .waits 0
  | .transfer => .works
  | .print => .prints
  | .close => .closes
  | .exit => .unlinks
  | _ => .exited 0

/-- The two as a server and a client that are at one FIFO; the `close` of the other's end is the way
out of `open`, and `exit` the `unlink`. -/
def view (s : State) : Fifo.State Unit Unit where
  name := if s.pc .child = .exited 0 then none else some 0
  made := 1
  pipes := Function.update (fun _ => .empty) 0 s.pipe
  servers := Function.update (fun _ => 0) 0 1
  clients := Function.update (fun _ => 0) 0 1
  procs
    | .inl _ => ⟨serverPc (s.pc .parent), 0, [], [], none⟩
    | .inr _ => ⟨clientPc (s.pc .child), 0, s.buf, s.got, s.line⟩

@[simp] theorem view_setReads {b : Bool} : view (s.setReads w b) = view s := rfl

@[simp] theorem view_setWrites {b : Bool} : view (s.setWrites w b) = view s := rfl

theorem view_pipe (q : Pipe UInt8) : view { s with pipe := q } = (view s).setPipe 0 q := by
  unfold view Fifo.State.setPipe
  simp only [Function.update_idem]

theorem view_goto_parent (s : State) (pc : Pc) :
    view (s.goto .parent pc) = (view s).goto (.inl ()) (serverPc pc) := by
  have hprocs : (view (s.goto .parent pc)).procs
      = ((view s).goto (.inl ()) (serverPc pc)).procs := by
    funext p
    rcases p with _ | _ <;> rfl
  exact congrArg (fun procs => { view s with procs := procs }) hprocs

theorem view_child (pc : Pc) (got : List UInt8) (line : Option Fifo.Line) (hpc : pc ≠ .exited 0)
    (hold : s.pc .child ≠ .exited 0) : view { s.goto .child pc with got := got, line := line }
      = (view s).set (.inr ()) ⟨clientPc pc, 0, s.buf, got, line⟩ := by
  have hprocs : (view { s.goto .child pc with got := got, line := line }).procs
      = ((view s).set (.inr ()) ⟨clientPc pc, 0, s.buf, got, line⟩).procs := by
    funext p
    rcases p with _ | _ <;> rfl
  have hname : (view { s.goto .child pc with got := got, line := line }).name = (view s).name :=
    (if_neg hpc).trans (if_neg hold).symm
  calc view { s.goto .child pc with got := got, line := line }
      = { view s with
          name := (view { s.goto .child pc with got := got, line := line }).name
          procs := (view { s.goto .child pc with got := got, line := line }).procs } := rfl
    _ = (view s).set (.inr ()) ⟨clientPc pc, 0, s.buf, got, line⟩ := by
        rw [hprocs, hname]
        rfl

theorem view_goto_child (pc : Pc) (hpc : pc ≠ .exited 0) (hold : s.pc .child ≠ .exited 0) :
    view (s.goto .child pc) = (view s).goto (.inr ()) (clientPc pc) :=
  view_child pc s.got s.line hpc hold

theorem view_exit (s : State) : view (s.goto .child (.exited 0))
    = { (view s).goto (.inr ()) (.exited 0) with name := none } := by
  have hprocs : (view (s.goto .child (.exited 0))).procs
      = ((view s).goto (.inr ()) (.exited 0)).procs := by
    funext p
    rcases p with _ | _ <;> rfl
  exact congrArg (fun procs => { view s with name := none, procs := procs }) hprocs

theorem goto_eq_self {u : Fifo.State Unit Unit} {p : Unit ⊕ Unit} {pc : Fifo.Pc}
    (h : (u.procs p).pc = pc) : u.goto p pc = u := by
  subst h
  exact congrArg (fun procs : Unit ⊕ Unit → Fifo.Proc => { u with procs := procs })
    (Function.update_eq_self ..)

/-- The child is there. -/
def Born (s : State) : Prop := Inv s ∧ s.pc .child ≠ .unborn

theorem Born.not_fork (h : Born s) : s.pc .parent ≠ .fork := by
  intro hpc
  have hplaces := h.1.places
  rw [hpc] at hplaces
  exact h.2 hplaces

theorem Born.child (h : Born s) : OfChild (s.pc .child) := by
  have hplaces := h.1.places
  unfold Places at hplaces
  split at hplaces
  · exact absurd hplaces h.2
  · exact absurd hplaces h.2
  · exact absurd hplaces h.2
  all_goals first | exact hplaces | exact .inr (.inr (.inr (.inr (.inr hplaces)))) | cases hplaces

theorem writer_iff (h : Born s) : (view s).Writer 0 ↔ s.writes .parent = true := by
  have hfork := h.not_fork
  rw [h.1.writes]
  constructor
  · rintro ⟨_, hat⟩
    cases hpc : s.pc .parent <;> simp [Fifo.Proc.At, view, hpc, serverPc, holdsWrite] at hat ⊢
  · intro hw
    refine ⟨(), ?_⟩
    cases hpc : s.pc .parent <;> rw [hpc] at hw <;> cases hw <;>
      simp [Fifo.Proc.At, view, hpc, serverPc] at hfork ⊢

theorem reader_iff (h : Inv s) : (view s).Reader 0 ↔ s.reads .child = true := by
  rw [h.reads]
  constructor
  · rintro ⟨_, hat⟩
    cases hpc : s.pc .child <;> simp [Fifo.Proc.At, view, hpc, clientPc, holdsRead] at hat ⊢
  · intro hr
    refine ⟨(), ?_⟩
    cases hpc : s.pc .child <;> rw [hpc] at hr <;> cases hr <;>
      simp [Fifo.Proc.At, view, hpc, clientPc]

/-- A process gives up its end; the other has its own, or nobody has any. -/
theorem leaves_settle {p : Unit ⊕ Unit} {pc : Fifo.Pc} (hview : view t = (view s).goto p pc)
    (hopen : t.Open ↔ ∃ r ≠ p, ((view s).procs r).At 0) :
    Fifo.Leaves (view s) p pc (view t.settle) := by
  have hfd : ((view s).procs p).fd = 0 := by rcases p with _ | _ <;> rfl
  by_cases ho : t.Open
  · rw [settle_eq (.inl ho), hview]
    refine .others ?_
    rw [hfd]
    exact hopen.mp ho
  · have hsettle : view t.settle = ((view s).goto p pc).setPipe ((view s).procs p).fd .empty := by
      rw [hfd, ← hview, ← view_pipe, State.settle, if_neg ho]
    rw [hsettle]
    refine .last fun r hr hat => ho (hopen.mpr ⟨r, hr, ?_⟩)
    rwa [hfd] at hat

theorem leaves_parent (h : Born s) (pc : Pc) (hview : view t = view (s.goto .parent pc))
    (hreads : t.reads = Function.update s.reads .parent false)
    (hwrites : t.writes = Function.update s.writes .parent false) :
    Fifo.Leaves (view s) (.inl ()) (serverPc pc) (view t.settle) := by
  refine leaves_settle (hview.trans (view_goto_parent s pc)) ?_
  have hchild : s.writes .child = true → s.reads .child = true := by
    rw [h.1.writes, h.1.reads]
    cases s.pc .child <;> simp [holdsWrite, holdsRead]
  constructor
  · rintro ⟨w, hw⟩
    rw [hreads, hwrites] at hw
    have hr : s.reads .child = true := by
      cases w with
      | parent => simp at hw
      | child => exact hw.elim (fun hr => hr) hchild
    obtain ⟨k, hat⟩ := (reader_iff h.1).mpr hr
    exact ⟨.inr k, by simp, hat⟩
  · rintro ⟨r, hr, hat⟩
    rcases r with _ | k
    · exact absurd rfl hr
    · refine ⟨.child, .inl ?_⟩
      rw [hreads]
      exact (reader_iff h.1).mp ⟨k, hat⟩

theorem leaves_child (h : Born s) (pc : Pc)
    (hview : view t = (view s).goto (.inr ()) (clientPc pc))
    (hreads : t.reads = Function.update s.reads .child false)
    (hwrites : t.writes = Function.update s.writes .child false) :
    Fifo.Leaves (view s) (.inr ()) (clientPc pc) (view t.settle) := by
  refine leaves_settle hview ?_
  have hparent : s.reads .parent = true → s.writes .parent = true := by
    rw [h.1.writes, h.1.reads]
    cases s.pc .parent <;> simp [holdsWrite, holdsRead]
  constructor
  · rintro ⟨w, hw⟩
    rw [hreads, hwrites] at hw
    have hwr : s.writes .parent = true := by
      cases w with
      | child => simp at hw
      | parent => exact hw.elim hparent fun hr => hr
    obtain ⟨i, hat⟩ := (writer_iff h).mpr hwr
    exact ⟨.inl i, by simp, hat⟩
  · rintro ⟨r, hr, hat⟩
    rcases r with i | _
    · refine ⟨.parent, .inr ?_⟩
      rw [hwrites]
      exact (writer_iff h).mp ⟨i, hat⟩
    · exact absurd rfl hr

end View

section Refinement

/-- The `wait` that the FIFO's server does not do. -/
def toWait (s : State) : ℕ := if s.pc .parent = .wait then 1 else 0

theorem refines : lts.Refines Fifo.lts view Born toWait := by
  intro s l t h hst
  have hplaces := h.1.places
  have hinv := inv_step h.1 hst
  cases hst with
  | pipe hpc | pipeFails hpc | fork hpc | forkFails hpc =>
    rw [hpc] at hplaces
    exact absurd hplaces h.2
  | closeRead hpc =>
    refine ⟨⟨hinv, h.2⟩, .inl ⟨.step (.inl ()), ?_⟩⟩
    have hw : s.writes .parent = true := by rw [h.1.writes, hpc]; rfl
    have hopen : ((s.goto .parent .transfer).setReads .parent false).Open := ⟨.parent, .inr hw⟩
    rw [settle_eq (.inl hopen), view_setReads, view_goto_parent]
    exact .opened (congrArg serverPc hpc) (Nat.le_refl 1)
  | closeWrite hpc =>
    refine ⟨⟨hinv, by simp [State.settle, State.setWrites]⟩, .inl ⟨.step (.inr ()), ?_⟩⟩
    have hr : s.reads .child = true := by rw [h.1.reads, hpc]; rfl
    have hopen : ((s.goto .child .transfer).setWrites .child false).Open := ⟨.child, .inl hr⟩
    rw [settle_eq (.inl hopen), view_setWrites,
      view_goto_child .transfer (by simp) (by simp [hpc])]
    exact .opened (congrArg clientPc hpc) (Nat.zero_le _)
  | write hpc hr hroom =>
    refine ⟨⟨hinv, h.2⟩, .inl ⟨.step (.inl ()), ?_⟩⟩
    have hreader : s.reads .child = true := by
      obtain ⟨w, hw⟩ := hr
      cases w with
      | parent =>
        rw [h.1.reads, hpc] at hw
        cases hw
      | child => exact hw
    have hview : view { s.goto .parent .close with pipe := s.pipe.write msg }
        = ((view s).goto (.inl ()) .closes).setPipe 0 (s.pipe.write msg) := by
      rw [view_pipe (s := s.goto .parent .close), view_goto_parent]
      rfl
    rw [hview]
    exact .write (congrArg serverPc hpc) ((reader_iff h.1).mpr hreader) hroom
  | sigpipe hpc hr =>
    refine ⟨⟨hinv, h.2⟩, .inl ⟨.step (.inl ()), ?_⟩⟩
    have hnone : ¬ (view s).Reader 0 := fun hreader => by
      have hchild := (reader_iff h.1).mp hreader
      rw [hr] at hchild
      cases hchild
    exact .sigpipe (congrArg serverPc hpc) hnone (leaves_parent h .killed rfl rfl rfl)
  | read hpc hne =>
    refine ⟨⟨hinv, by simp⟩, .inl ⟨.step (.inr ()), ?_⟩⟩
    have hview : view { s.goto .child .print with
          pipe := (s.pipe.read BUF_SIZE).2
          got := (s.pipe.read BUF_SIZE).1 }
        = ((view s).set (.inr ()) ⟨.prints, 0, s.buf, (s.pipe.read BUF_SIZE).1, s.line⟩).setPipe 0
          (s.pipe.read BUF_SIZE).2 :=
      (view_pipe (s := { s.goto .child .print with got := (s.pipe.read BUF_SIZE).1 }) _).trans
        (congrArg (fun u : Fifo.State Unit Unit => u.setPipe 0 (s.pipe.read BUF_SIZE).2)
          (view_child (s := s) .print _ s.line (by simp) (by simp [hpc])))
    rw [hview]
    exact .read (congrArg clientPc hpc) hne
  | eof hpc hnil hw =>
    refine ⟨⟨hinv, by simp⟩, .inl ⟨.step (.inr ()), ?_⟩⟩
    have hnone : ¬ (view s).Writer 0 := fun hwriter => by
      have hparent := (writer_iff h).mp hwriter
      rw [hw] at hparent
      cases hparent
    have hview := view_child (s := s) .print [] s.line (by simp) (by simp [hpc])
    exact hview ▸ .eof (congrArg clientPc hpc) hnil hnone
  | print hpc =>
    refine ⟨⟨hinv, by simp⟩, .inl ⟨.step (.inr ()), ?_⟩⟩
    have hview := view_child (s := s) .close s.got (some (if s.got = [] then .unset
      else .text (cstr (memcpy s.buf 0 s.got s.got.length)))) (by simp) (by simp [hpc])
    exact hview ▸ .print (congrArg clientPc hpc)
  | parentCloses hpc =>
    refine ⟨⟨hinv, h.2⟩, .inl ⟨.step (.inl ()), ?_⟩⟩
    have hr : s.reads .parent = false := by rw [h.1.reads, hpc]; rfl
    exact .close (congrArg serverPc hpc)
      (leaves_parent h .wait rfl (Function.update_eq_self_iff.mpr hr.symm).symm rfl)
  | childCloses hpc =>
    refine ⟨⟨hinv, by simp [State.settle, State.setReads]⟩, .inl ⟨.step (.inr ()), ?_⟩⟩
    have hw : s.writes .child = false := by rw [h.1.writes, hpc]; rfl
    have hview := view_goto_child (s := s) .exit (by simp) (by simp [hpc])
    exact .close (congrArg clientPc hpc)
      (leaves_child h .exit hview rfl (Function.update_eq_self_iff.mpr hw.symm).symm)
  | exit hpc =>
    rw [h.1.ends_eq (by rw [hpc]; rfl) (by rw [hpc]; rfl)] at hinv ⊢
    refine ⟨⟨hinv, by simp⟩, .inl ⟨.step (.inr ()), ?_⟩⟩
    rw [view_exit]
    exact .unlink (congrArg clientPc hpc)
  | wait hpc =>
    rw [h.1.ends_eq (by rw [hpc]; rfl) (by rw [hpc]; rfl)] at hinv ⊢
    refine ⟨⟨hinv, h.2⟩, .inr ⟨?_, ?_⟩⟩
    · rw [view_goto_parent]
      have hover : serverPc (s.pc .parent) = .exited 0 := by rw [hpc]; rfl
      exact goto_eq_self hover
    · unfold toWait
      rw [if_pos hpc, if_neg (by simp)]
      exact Nat.one_pos

theorem state_ext {u v : Fifo.State Unit Unit} (hname : u.name = v.name)
    (hpipes : u.pipes = v.pipes)
    (hcounts : u.made = v.made ∧ u.servers = v.servers ∧ u.clients = v.clients)
    (hprocs : u.procs = v.procs) : u = v := by
  obtain ⟨hmade, hservers, hclients⟩ := hcounts
  cases u
  cases v
  simp_all

/-- Right behind `fork` both processes are at the FIFO, the server having come first. -/
theorem view_forked (hpc : s.pc = fun _ => .closeOther) (hpipe : s.pipe = .empty)
    (hgot : s.got = []) (hline : s.line = none) : ∃ tr, Fifo.lts.Run tr (view s) := by
  let u : Fifo.State Unit Unit := { Fifo.start Unit Unit with
    procs := fun p => ⟨if p.isLeft then .start else .opens, 0, if p.isLeft then [] else s.buf, [],
      none⟩ }
  have hstart : Fifo.lts.Run [] u :=
    ⟨u, ⟨rfl, rfl, fun _ => rfl, fun _ => rfl, fun _ => rfl, fun _ => ⟨rfl, rfl, rfl⟩⟩, .nil u⟩
  have hmade := hstart.snoc (.mkfifo (i := ()) rfl rfl)
  have hserver := hmade.snoc (.openAlone (p := .inl ()) rfl rfl fun ⟨k, hat⟩ =>
    Fifo.not_at (.inr (.inl rfl)) hat)
  have hclient := hserver.snoc (.openTogether (p := .inr ()) rfl rfl ⟨(), rfl, trivial⟩)
  refine ⟨_, Eq.subst (motive := fun t => Fifo.lts.Run _ t) (state_ext ?_ ?_ ?_ ?_) hclient⟩
  · simp [view, hpc, u, Fifo.start, Fifo.State.enter, Fifo.State.come, Fifo.State.set]
  · show _ = Function.update (fun _ : ℕ => (Pipe.empty : Pipe UInt8)) 0 s.pipe
    rw [hpipe]
    exact (Function.update_eq_self 0 fun _ : ℕ => (Pipe.empty : Pipe UInt8)).symm
  · exact ⟨rfl, rfl, rfl⟩
  · funext p
    show _ = (match p with
      | .inl _ => (⟨serverPc (s.pc .parent), 0, [], [], none⟩ : Fifo.Proc)
      | .inr _ => ⟨clientPc (s.pc .child), 0, s.buf, s.got, s.line⟩)
    rw [hpc, hgot, hline]
    rcases p with _ | _ <;> rfl

end Refinement

section Exchange

/-- Seen as processes at a FIFO, the two are in a state that a server and a client reach. -/
def Meets (s : State) : Prop := Born s ∧ ∃ tr, Fifo.lts.Run tr (view s)

theorem Meets.not_killed (h : Meets s) : s.pc .parent ≠ .killed := by
  obtain ⟨-, tr, hrun⟩ := h
  intro hpc
  refine (Fifo.soloServer_run hrun ()).alive ?_
  show serverPc (s.pc .parent) = _
  rw [hpc]
  rfl

theorem Meets.line (h : Meets s) : s.line = none ∨ s.line = some (.text Fifo.hello) := by
  obtain ⟨-, tr, hrun⟩ := h
  cases hline : s.line with
  | none => exact .inl rfl
  | some line =>
    rcases ((Fifo.data_run hrun).procs (.inr ())).line line hline with rfl | rfl
    · exact absurd hline (Fifo.soloClient_run hrun ()).line
    · exact .inr rfl

/-- A child that has exited has printed the message. -/
theorem Meets.printed (h : Meets s) (hpc : s.pc .child = .exited 0) :
    s.line = some (.text Fifo.hello) := by
  refine h.line.resolve_left fun hnone => ?_
  obtain ⟨-, tr, hrun⟩ := h
  have htold := ((Fifo.data_run hrun).procs (.inr ())).told rfl (.inr (.inr ?_))
  · exact htold hnone
  · show clientPc (s.pc .child) = _
    rw [hpc]
    rfl

theorem child_enabled (h : Born s) (hpc : s.pc .child ≠ .exited 0)
    (hread : s.pc .child = .transfer → s.pipe.buf ≠ [] ∨ s.writes .parent = false) :
    ∃ l t, Step s l t := by
  rcases h.child with hc | hc | hc | hc | hc | hc
  · exact ⟨_, _, .closeWrite hc⟩
  · by_cases hnil : s.pipe.buf = []
    · refine ⟨_, _, .eof hc hnil fun w => ?_⟩
      cases w with
      | parent => exact (hread hc).resolve_left fun hne => hne hnil
      | child => rw [h.1.writes, hc]; rfl
    · exact ⟨_, _, .read hc hnil⟩
  · exact ⟨_, _, .print hc⟩
  · exact ⟨_, _, .childCloses hc⟩
  · exact ⟨_, _, .exit hc⟩
  · exact absurd hc hpc

theorem parent_enabled (h : Born s) (hw : s.writes .parent = true)
    (hroom : s.reads .child = true → s.pipe.buf = []) : ∃ l t, Step s l t := by
  rw [h.1.writes] at hw
  cases hpc : s.pc .parent with
  | closeOther => exact ⟨_, _, .closeRead hpc⟩
  | transfer =>
    cases hr : s.reads .child with
    | true =>
      refine ⟨_, _, .write hpc ⟨.child, hr⟩ ?_⟩
      rw [hroom hr]
      decide
    | false =>
      refine ⟨_, _, .sigpipe hpc fun w => ?_⟩
      cases w with
      | parent => rw [h.1.reads, hpc]; rfl
      | child => exact hr
  | close => exact ⟨_, _, .parentCloses hpc⟩
  | fork => exact absurd hpc h.not_fork
  | _ => rw [hpc] at hw; cases hw

theorem progress (h : Meets s) (hno : ¬ (serverPc (s.pc .parent) = .exited 0 ∧
    clientPc (s.pc .child) = .exited 0)) : ∃ l t, Step s l t := by
  by_cases hread : s.pc .child = .transfer → s.pipe.buf ≠ [] ∨ s.writes .parent = false
  · by_cases hc : s.pc .child = .exited 0
    · have hr : s.reads .child = false := by rw [h.1.1.reads, hc]; rfl
      refine parent_enabled h.1 ?_ fun hr' => nomatch hr.symm.trans hr'
      by_contra hw
      rw [h.1.1.writes] at hw
      refine hno ⟨?_, by rw [hc]; rfl⟩
      have hkilled := h.not_killed
      cases hpc : s.pc .parent <;> rw [hpc] at hw hkilled <;>
        first | rfl | exact absurd rfl hw | exact absurd rfl hkilled
    · exact child_enabled h.1 hc hread
  · obtain ⟨-, hor⟩ := Classical.not_imp.mp hread
    obtain ⟨hnil, hw⟩ := not_or.mp hor
    exact parent_enabled h.1 (by simpa using hw) fun _ => not_not.mp hnil

/-- Before the child is there nothing is read and printed. -/
structure Early (s : State) : Prop where
  inv : Inv s
  unborn : s.pc .child = .unborn
  pipe : s.pipe = .empty
  got : s.got = []
  line : s.line = none

/-- The calls before the child is there, at most. -/
def toFork (s : State) : ℕ :=
  if s.pc .parent = .pipe then 2 else if s.pc .parent = .fork then 1 else 0

theorem Early.parent (h : Early s) :
    s.pc .parent = .pipe ∨ s.pc .parent = .fork ∨ s.pc .parent = .exited 1 := by
  have hplaces := h.inv.places
  rw [h.unborn] at hplaces
  unfold Places at hplaces
  split at hplaces
  · exact .inl ‹_›
  · exact .inr (.inl ‹_›)
  · exact .inr (.inr ‹_›)
  all_goals first | exact hplaces.elim | simp [OfChild] at hplaces

/-- A step leads on to where there is no child, or right behind `fork`. -/
theorem early_step (h : Early s) (hst : Step s l t) : Early t ∧ toFork t < toFork s ∨ Meets t := by
  have hinv := inv_step h.inv hst
  have hends : (s.ends .parent (.exited 1)).pipe = .empty := by
    show ite _ s.pipe _ = _
    rw [h.pipe, ite_self]
  cases hst with
  | pipe hpc =>
    exact .inl ⟨⟨hinv, h.unborn, h.pipe, h.got, h.line⟩,
      by simp [toFork, hpc, State.setReads, State.setWrites]⟩
  | pipeFails hpc | forkFails hpc =>
    exact .inl ⟨⟨hinv, h.unborn, hends, h.got, h.line⟩,
      by simp [toFork, hpc, State.ends, State.settle, State.setReads, State.setWrites]⟩
  | fork =>
    exact .inr ⟨⟨hinv, nofun⟩, view_forked rfl h.pipe h.got h.line⟩
  | closeWrite hpc | read hpc | eof hpc | print hpc | childCloses hpc | exit hpc =>
    exact nomatch h.unborn.symm.trans hpc
  | closeRead hpc | write hpc | sigpipe hpc | parentCloses hpc | wait hpc =>
    rcases h.parent with he | he | he <;> exact nomatch he.symm.trans hpc

variable {tr : List (State × Label)}

theorem early_or_meets (h : lts.Run tr s) : Early s ∨ Meets s := by
  refine h.inv (I := fun s => Early s ∨ Meets s) ?_ ?_
  · rintro s ⟨hpc, hreads, hwrites, hpipe, hgot, hline⟩
    refine .inl ⟨⟨fun w => ?_, fun w => ?_, ?_, fun _ => hpipe⟩, ?_, hpipe, hgot, hline⟩
    · rw [hreads, hpc]
      cases w <;> rfl
    · rw [hwrites, hpc]
      cases w <;> rfl
    · rw [hpc]
      rfl
    · rw [hpc]
      rfl
  · rintro s l t (h | h) hst
    · exact (early_step h hst).imp_left And.left
    · exact .inr (refines.reachable s l t h hst).1

/-- In any run, once the child is there, parent and child are in a state that the FIFO's server and
client reach: the child has printed nothing or the message, and the parent is not killed. -/
theorem pipe_refines (h : lts.Run tr s) : (s.pc .child = .unborn ∧ s.line = none) ∨
    (∃ tr', Fifo.lts.Run tr' (view s)) ∧ (s.line = none ∨ s.line = some (.text Fifo.hello)) ∧
      s.pc .parent ≠ .killed :=
  (early_or_meets h).imp (fun h => ⟨h.unborn, h.line⟩) fun h => ⟨h.2, h.line, h.not_killed⟩

/-- Neither is held in its `open`. -/
theorem going (s : State) (p : Unit ⊕ Unit) : (view s).Going p := by
  unfold Fifo.State.Going
  rcases p with _ | _
  · cases hpc : s.pc .parent <;> simp [view, hpc, serverPc, Fifo.State.partners]
  · cases hpc : s.pc .child <;> simp [view, hpc, clientPc, Fifo.State.partners]

/-- The parent has at most its `wait` left, and the child nothing. -/
def Closing (s : State) : Prop :=
  Meets s ∧ (s.pc .parent = .wait ∨ s.pc .parent = .exited 0) ∧ s.pc .child = .exited 0

theorem closing_of_exited (h : Meets s) (hparent : serverPc (s.pc .parent) = .exited 0)
    (hchild : clientPc (s.pc .child) = .exited 0) : Closing s := by
  have hc : s.pc .child = .exited 0 := by
    rcases h.1.child with he | he | he | he | he | he <;> rw [he] at hchild <;>
      first | exact he | cases hchild
  refine ⟨h, ?_, hc⟩
  have hplaces := h.1.1.places
  rw [hc] at hplaces
  unfold Places at hplaces
  split at hplaces
  all_goals first | exact .inl ‹_› | exact .inr ‹_› | simp_all [serverPc]

theorem meets_closes (h : Meets s) : lts.Inevitably Closing s := by
  obtain ⟨tr, hrun⟩ := h.2
  have hview : Fifo.lts.Inevitably (fun u => (u.procs (.inl ())).pc = .exited 0 ∧
      (u.procs (.inr ())).pc = .exited 0) (view s) := by
    refine (Fifo.ends_with (I := fun u => u.Going (.inl ()) ∧ u.Going (.inr ()) ∧
      Fifo.SoloServer u ()) ?_ (Fifo.data_run hrun) (Fifo.waiting_run hrun)
      ⟨going s _, going s _, Fifo.soloServer_run hrun ()⟩).mono ?_
    · rintro u l u' ⟨hi, hk, hsole⟩ hst
      exact ⟨Fifo.going_step hi hst, Fifo.going_step hk hst, Fifo.soloServer_step hsole hst⟩
    · rintro u ⟨⟨hd, -, hi, hk, hsole⟩, hall⟩
      refine ⟨(Fifo.exits_of_going hi (hall _)).resolve_right hsole.alive,
        (Fifo.exits_of_going hk (hall _)).resolve_right fun hpc => ?_⟩
      have hfits := (hd.procs (.inr ())).fits
      rw [hpc] at hfits
      exact hfits
  refine (refines.reachable.inevitably (fun t ht hno => progress ht hno) hview h).mono ?_
  rintro t ⟨ht, hparent, hchild⟩
  exact closing_of_exited ht hparent hchild

/-- What is left is the parent's `wait`. -/
theorem closing_ends (h : Closing s) : lts.Inevitably (fun t => t.pc .parent = .exited 0 ∧
    t.pc .child = .exited 0 ∧ t.line = some (.text Fifo.hello)) s := by
  obtain ⟨hmeets, hparent | hparent, hchild⟩ := h
  · have hline := hmeets.printed hchild
    refine .later ⟨_, _, .wait hparent hchild⟩ fun l t hst => .now ?_
    cases hst with
    | wait => exact ⟨rfl, hchild, hline⟩
    | closeWrite hpc | read hpc | eof hpc | print hpc | childCloses hpc | exit hpc =>
      exact nomatch hchild.symm.trans hpc
    | pipe hpc | pipeFails hpc | fork hpc | forkFails hpc | closeRead hpc | write hpc
    | sigpipe hpc | parentCloses hpc =>
      exact nomatch hparent.symm.trans hpc
  · exact .now ⟨hparent, hchild, hmeets.printed hchild⟩

/-- The parent has failed before there was a child, or the child has printed the message and both
have exited. -/
def Ended (s : State) : Prop :=
  s.pc .parent = .exited 1 ∧ s.pc .child = .unborn ∨
  s.pc .parent = .exited 0 ∧ s.pc .child = .exited 0 ∧ s.line = some (.text Fifo.hello)

/-- Whatever fails before there is a child, inevitably the two come to their ends, with the message
printed if there was one. -/
theorem pipe_exchange (h : lts.Run tr s) : lts.Inevitably Ended s := by
  have hmeets : ∀ s, Meets s → lts.Inevitably Ended s := fun s hs =>
    (meets_closes hs).bind (I := fun _ => True) (fun _ _ _ _ _ => trivial)
      (fun t _ ht => (closing_ends ht).mono fun _ he => .inr he) trivial
  have hearly : Early s → lts.Inevitably (fun t =>
      t.pc .parent = .exited 1 ∧ t.pc .child = .unborn ∨ Meets t) s := by
    refine Inevitably.of_measure (I := Early) toFork ?_ ?_
    · intro t ht hno
      rcases ht.parent with hpc | hpc | hpc
      · exact ⟨_, _, .pipe hpc⟩
      · exact ⟨_, _, .fork hpc⟩
      · exact absurd (.inl ⟨hpc, ht.unborn⟩) hno
    · exact fun t l t' ht _ hst => (early_step ht hst).symm.imp_left .inr
  rcases early_or_meets h with he | hm
  · refine (hearly he).bind (I := fun _ => True) (fun _ _ _ _ _ => trivial) ?_ trivial
    rintro t - (hfailed | ht)
    · exact .now (.inl hfailed)
    · exact hmeets t ht
  · exact hmeets s hm

/-- The parent before `pipe`. -/
def start : State where
  pc w := if w = .parent then .pipe else .unborn
  reads _ := false
  writes _ := false
  pipe := .empty
  buf := []
  got := []
  line := none

theorem start_run : lts.Run [] start := ⟨start, ⟨rfl, rfl, rfl, rfl, rfl, rfl⟩, .nil start⟩

theorem pipe_refines_forked : ∃ s tr tr', lts.Run tr s ∧ s.pc .child = .closeOther ∧
    Fifo.lts.Run tr' (view s) := by
  have hforked := (start_run.snoc (.pipe rfl)).snoc (.fork rfl)
  rcases pipe_refines hforked with ⟨hunborn, -⟩ | ⟨⟨tr', hrun⟩, -⟩
  · exact nomatch hunborn
  · exact ⟨_, _, tr', hforked, rfl, hrun⟩

theorem pipe_exchange_start : lts.Inevitably Ended start := pipe_exchange start_run

end Exchange

end EltexSystems.ParentChild
