import FarsightDriver.Key.Basic

/-!
# Every report has a press of its own

A call that leaves its wait takes the next press that no other call has taken.
There may be none: a signal ends a wait without any press, and one press lets
every call pass that tests `keyflag` before somebody clears it.
-/

namespace FarsightDriver.Key

open FarsightDriver.Foundation

variable {P : Type*} [DecidableEq P]

def Pc.waiting : Pc → Bool
  | .wait _ => true
  | _ => false

def Pc.ticket : Pc → Option Tickets.Entry
  | .putUser _ ticket | .clear _ ticket => some ticket
  | _ => none

/-- A call leaves its wait when not every press has been taken by another call. -/
def LeavesForPress (s : State P) : Label P → Prop
  | .tick p | .signal p => (s.pc p).waiting = true → s.left < s.accepted
  | _ => True

instance (s : State P) : (label : Label P) → Decidable (LeavesForPress s label)
  | .tick _ | .signal _ => inferInstanceAs (Decidable (_ → _))
  | .irq _ | .raise | .finish _ | .call _ _ => .isTrue trivial

/--
The calls that returned 1 are matched with presses of their own, each accepted
before the call left its wait.
-/
def NoPhantom (s : State P) : Prop :=
  Tickets.Matched (s.reports.map fun report => report.ticket.issued)

def State.tickets (s : State P) : Tickets.State P :=
  ⟨s.accepted, s.left, fun p => (s.pc p).ticket, s.reports.map Report.ticket⟩

def ticketAction (s : State P) : Label P → Tickets.Action P
  | .raise => .issue
  | .tick p =>
      match s.pc p with
      | .wait _ => .take p
      | .clear _ _ => .use p
      | _ => .skip
  | .signal p => .take p
  | _ => .skip

variable {s next : State P}

theorem ticket_update (pc : P → Pc) (p : P) (pc' : Pc) :
    (fun q => (Function.update pc p pc' q).ticket) =
      Function.update (fun q => (pc q).ticket) p pc'.ticket := by
  funext q
  exact Function.apply_update (fun _ => Pc.ticket) pc p pc' q

theorem tickets_goto {p : P} {pc : Pc} (h : pc.ticket = (s.pc p).ticket) :
    (s.goto p pc).tickets = s.tickets := by
  simp only [State.tickets, State.goto, ticket_update, h, Tickets.State.mk.injEq, true_and,
    and_true]
  exact Function.update_eq_self p _

theorem tickets_leave (p : P) (writable : Bool) :
    (s.leave p writable).tickets = s.tickets.take p := by
  simp only [State.tickets, State.leave, State.goto, Tickets.State.take, ticket_update]
  rfl

theorem tickets_putUser {p : P} {writable : Bool} {ticket : Tickets.Entry}
    (hpc : s.pc p = .putUser writable ticket) :
    (s.putUser p writable ticket).tickets = s.tickets := by
  have hticket (byte : Option (BitVec 8)) : (Pc.clear byte ticket).ticket = (s.pc p).ticket := by
    rw [hpc]
    rfl
  exact tickets_goto (hticket _)

theorem tickets_clear (p : P) (byte : Option (BitVec 8)) (ticket : Tickets.Entry) :
    (s.clear p byte ticket).tickets = s.tickets.use p ticket := by
  simp only [State.tickets, State.clear, State.goto, Tickets.State.use, ticket_update,
    List.map_append, List.map_singleton]
  rfl

theorem take_of_wait {p : P} {writable : Bool} (hpc : s.pc p = .wait writable) :
    (Tickets.system P).step s.tickets (.take p) = some (s.leave p writable).tickets := by
  have hnone : s.tickets.holding p = none := by simp only [State.tickets, hpc, Pc.ticket]
  rw [tickets_leave]
  exact if_pos hnone

theorem ticketAction_step (hguard : LeavesForPress s label) (hstep : step s label = some next) :
    Tickets.Backed s.tickets (ticketAction s label) ∧
      (Tickets.system P).step s.tickets (ticketAction s label) = some next.tickets := by
  cases step_cases hstep with
  | debounced =>
      refine ⟨trivial, ?_⟩
      rw [State.debounce]
      split <;> rfl
  | raised => exact ⟨trivial, rfl⟩
  | finished => exact ⟨trivial, rfl⟩
  | called hpc =>
      refine ⟨trivial, ?_⟩
      rw [tickets_goto (by rw [hpc]; rfl)]
      rfl
  | woken hpc =>
      simp only [ticketAction, hpc]
      exact ⟨hguard (by rw [hpc]; rfl), take_of_wait hpc⟩
  | signalled hpc => exact ⟨hguard (by rw [hpc]; rfl), take_of_wait hpc⟩
  | told hpc =>
      simp only [ticketAction, hpc]
      rw [tickets_putUser hpc]
      exact ⟨trivial, rfl⟩
  | @cleared p byte ticket hpc =>
      have hholds : s.tickets.holding p = some ticket := by
        simp only [State.tickets, hpc, Pc.ticket]
      simp only [ticketAction, hpc]
      rw [tickets_clear]
      exact ⟨trivial, congrArg (Option.map _) hholds⟩

def ticketSimulation :
    System.Simulation (system P) LeavesForPress (Tickets.system P) Tickets.Backed where
  inv _ := True
  abs := State.tickets
  label := ticketAction
  init s h := by
    obtain ⟨-, -, hidle, -, -, -, hreports⟩ := h
    refine ⟨trivial, fun p => ?_, ?_⟩
    · simp only [State.tickets, hidle p, Pc.ticket]
    · simp only [State.tickets, hreports, List.map_nil]
  step _ _ _ _ hg hs := ⟨trivial, ticketAction_step hg hs⟩

theorem noPhantom_of_tickets
    (h : (Tickets.system P).ReachableWith Tickets.Backed s.tickets) : NoPhantom s := by
  have hmatched := Tickets.matched_of_reachable h
  rwa [State.tickets, List.map_map] at hmatched

/-- A signal ends the wait, and no press has been accepted. -/
def signalled (p : P) : List (Label P) := [.call p true, .signal p, .tick p, .tick p]

def Pc.answering : Pc → Bool
  | .putUser _ _ | .clear _ _ => true
  | _ => false

/-- No signal ends a wait, and no call leaves its wait while another has still to clear the flag. -/
def OneAtATime (s : State P) : Label P → Prop
  | .tick p => (s.pc p).waiting = true → ∀ q, (s.pc q).answering = false
  | .signal _ => False
  | _ => True

/-- A set flag that nobody is answering belongs to a press that nobody has taken. -/
structure Turns (s : State P) : Prop where
  le : s.left ≤ s.accepted
  flag : s.keyflag ≠ 0 → (∀ q, (s.pc q).answering = false) → s.left < s.accepted

theorem Turns.goto (h : Turns s) {p : P} {pc : Pc}
    (hpc : pc.answering = false → (s.pc p).answering = false) : Turns (s.goto p pc) := by
  refine ⟨h.le, fun hflag hnone => h.flag hflag fun q => ?_⟩
  by_cases hq : q = p
  · subst hq
    exact hpc (by simpa [State.goto] using hnone q)
  · simpa [State.goto, Function.update_of_ne hq] using hnone q

theorem turns_step (h : Turns s) {label : Label P} (hguard : OneAtATime s label)
    (hstep : step s label = some next) : Turns next := by
  cases step_cases hstep with
  | debounced =>
      rw [State.debounce]
      split
      · exact ⟨h.le, h.flag⟩
      · exact h
  | raised => exact ⟨Nat.le_succ_of_le h.le, fun _ _ => Nat.lt_succ_of_le h.le⟩
  | finished => exact ⟨h.le, h.flag⟩
  | called hpc => exact h.goto fun _ => by rw [hpc]; rfl
  | @woken p writable hpc hflag =>
      have hlt := h.flag hflag (hguard (by rw [hpc]; rfl))
      refine ⟨hlt, fun _ hnone => ?_⟩
      have hself := hnone p
      simp [State.leave, State.goto, Pc.answering] at hself
  | signalled => exact hguard.elim
  | @told p writable ticket hpc =>
      have hgoto (byte : Option (BitVec 8)) : Turns (s.goto p (.clear byte ticket)) :=
        h.goto nofun
      exact ⟨h.le, (hgoto _).flag⟩
  | cleared => exact ⟨h.le, fun hflag => absurd rfl hflag⟩

theorem turns_init (h : (system P).init s) : Turns s := by
  obtain ⟨hflag, -, -, haccepted, hleft, -, -⟩ := h
  exact ⟨by omega, fun hset => absurd hflag hset⟩

theorem leavesForPress_of_turns (h : Turns s) {label : Label P} (hguard : OneAtATime s label)
    (hstep : step s label = some next) : LeavesForPress s label := by
  cases step_cases hstep with
  | woken hpc hflag => exact fun hwaiting => h.flag hflag (hguard hwaiting)
  | signalled => exact hguard.elim
  | told hpc => exact fun hwaiting => absurd hwaiting (by rw [hpc]; simp [Pc.waiting])
  | cleared hpc => exact fun hwaiting => absurd hwaiting (by rw [hpc]; simp [Pc.waiting])
  | _ => trivial

theorem one_at_a_time_matched (h : (system P).ReachableWith OneAtATime s) : NoPhantom s := by
  have hleaves := h.reachableWith Turns (fun _ => turns_init)
    (fun _ _ _ hi hg hs => turns_step hi hg hs)
    (fun _ _ _ hi hg hs => leavesForPress_of_turns hi hg hs)
  exact noPhantom_of_tickets (ticketSimulation.reachable hleaves)

end FarsightDriver.Key
