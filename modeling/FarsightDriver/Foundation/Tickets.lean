import FarsightDriver.Foundation.System
import Mathlib.Data.List.Forall2
import Mathlib.Data.List.Perm.Subperm
import Mathlib.Data.List.Range

/-!
# Events that are used at most once

A source issues tickets 0, 1, 2 and so on.  A process takes the next ticket
that has not been taken, whether it is issued already or not, and uses it up
later.  As long as nobody takes a ticket before it is issued, the uses can be
matched with the issues: every use has a ticket of its own, issued before the
process took it.
-/

namespace FarsightDriver.Foundation.Tickets

/--
The entries of `issued` say how many tickets were issued before each use; the
uses are matched with tickets of their own among these.
-/
def Matched (issued : List Nat) : Prop :=
  ∃ tickets : List Nat, tickets.Nodup ∧ List.Forall₂ (fun ticket n => ticket < n) tickets issued

/-- There are never more uses than tickets. -/
theorem Matched.length_le {issued : List Nat} (h : Matched issued) (bound : Nat)
    (hbound : ∀ n ∈ issued, n ≤ bound) : issued.length ≤ bound := by
  obtain ⟨tickets, hnodup, hlt⟩ := h
  have hsub : tickets ⊆ List.range bound := by
    intro ticket hmem
    obtain ⟨i, hi, rfl⟩ := List.getElem_of_mem hmem
    have hi' : i < issued.length := hlt.length_eq ▸ hi
    have hissued := hbound issued[i] (List.getElem_mem hi')
    have hticket := List.forall₂_iff_get.mp hlt |>.2 i hi hi'
    exact List.mem_range.mpr (lt_of_lt_of_le hticket hissued)
  have hlength := (List.subperm_of_subset hnodup hsub).length_le
  rwa [List.length_range, hlt.length_eq] at hlength

/-- A ticket, with the number of tickets that were issued when it was taken. -/
structure Entry where
  ticket : Nat
  issued : Nat
  deriving DecidableEq

structure State (P : Type*) where
  issued : Nat
  taken : Nat
  holding : P → Option Entry
  used : List Entry

inductive Action (P : Type*) where
  | skip
  | issue
  | take (p : P)
  | use (p : P)

variable {P : Type*} [DecidableEq P]

def State.take (s : State P) (p : P) : State P :=
  { s with
    taken := s.taken + 1
    holding := Function.update s.holding p (some ⟨s.taken, s.issued⟩) }

def State.use (s : State P) (p : P) (entry : Entry) : State P :=
  { s with holding := Function.update s.holding p none, used := s.used ++ [entry] }

def system (P : Type*) [DecidableEq P] : System (State P) (Action P) where
  init s := (∀ p, s.holding p = none) ∧ s.used = []
  step s
    | .skip => some s
    | .issue => some { s with issued := s.issued + 1 }
    | .take p => if s.holding p = none then some (s.take p) else none
    | .use p => (s.holding p).map fun entry => s.use p entry

/-- Nobody takes a ticket that is not issued. -/
def Backed (s : State P) : Action P → Prop
  | .take _ => s.taken < s.issued
  | _ => True

structure Inv (s : State P) : Prop where
  held : ∀ p entry, s.holding p = some entry →
    entry.ticket < entry.issued ∧ entry.ticket < s.taken
  spent : ∀ entry ∈ s.used, entry.ticket < entry.issued ∧ entry.ticket < s.taken
  apart : ∀ p q entry other, s.holding p = some entry → s.holding q = some other →
    entry.ticket = other.ticket → p = q
  unspent : ∀ p entry, s.holding p = some entry → entry.ticket ∉ s.used.map Entry.ticket
  nodup : (s.used.map Entry.ticket).Nodup

omit [DecidableEq P] in
theorem Inv.matched {s : State P} (h : Inv s) : Matched (s.used.map Entry.issued) := by
  refine ⟨s.used.map Entry.ticket, h.nodup, ?_⟩
  rw [List.forall₂_map_left_iff, List.forall₂_map_right_iff, List.forall₂_same]
  exact fun entry hmem => (h.spent entry hmem).1

variable {s next : State P}

theorem Inv.take (h : Inv s) {p : P} (hbacked : s.taken < s.issued) : Inv (s.take p) := by
  have hcases {q : P} {entry : Entry} (hq : (s.take p).holding q = some entry) :
      (q = p ∧ entry = ⟨s.taken, s.issued⟩) ∨ (q ≠ p ∧ s.holding q = some entry) := by
    by_cases hqp : q = p
    · subst hqp
      simp only [State.take, Function.update_self, Option.some.injEq] at hq
      exact .inl ⟨rfl, hq.symm⟩
    · simp only [State.take, Function.update_of_ne hqp] at hq
      exact .inr ⟨hqp, hq⟩
  constructor
  · intro q entry hq
    rcases hcases hq with ⟨-, rfl⟩ | ⟨-, hold⟩
    · exact ⟨hbacked, Nat.lt_succ_self _⟩
    · exact ⟨(h.held q entry hold).1, Nat.lt_succ_of_lt (h.held q entry hold).2⟩
  · exact fun entry hmem => ⟨(h.spent entry hmem).1, Nat.lt_succ_of_lt (h.spent entry hmem).2⟩
  · intro q r entry other hq hr hsame
    rcases hcases hq with ⟨rfl, rfl⟩ | ⟨-, hold⟩ <;>
      rcases hcases hr with ⟨rfl, rfl⟩ | ⟨-, hold'⟩
    · rfl
    · exact absurd hsame.symm (ne_of_lt (h.held r other hold').2)
    · exact absurd hsame (ne_of_lt (h.held q entry hold).2)
    · exact h.apart q r entry other hold hold' hsame
  · intro q entry hq hmem
    rcases hcases hq with ⟨-, rfl⟩ | ⟨-, hold⟩
    · obtain ⟨used, hused, hticket⟩ := List.mem_map.mp hmem
      exact absurd hticket (ne_of_lt (h.spent used hused).2)
    · exact h.unspent q entry hold hmem
  · exact h.nodup

theorem Inv.use (h : Inv s) {p : P} {entry : Entry} (hp : s.holding p = some entry) :
    Inv (s.use p entry) := by
  have hcases {q : P} {other : Entry} (hq : (s.use p entry).holding q = some other) :
      q ≠ p ∧ s.holding q = some other := by
    by_cases hqp : q = p
    · subst hqp
      simp only [State.use, Function.update_self, reduceCtorEq] at hq
    · simp only [State.use, Function.update_of_ne hqp] at hq
      exact ⟨hqp, hq⟩
  constructor
  · exact fun q other hq => h.held q other (hcases hq).2
  · intro other hmem
    rcases List.mem_append.mp hmem with hold | hnew
    · exact h.spent other hold
    · exact List.mem_singleton.mp hnew ▸ h.held p entry hp
  · exact fun q r other other' hq hr => h.apart q r other other' (hcases hq).2 (hcases hr).2
  · intro q other hq hmem
    obtain ⟨hqp, hold⟩ := hcases hq
    rw [State.use, List.map_append, List.map_singleton] at hmem
    rcases List.mem_append.mp hmem with hspent | hnew
    · exact h.unspent q other hold hspent
    · exact hqp (h.apart q p other entry hold hp (List.mem_singleton.mp hnew))
  · rw [State.use, List.map_append, List.map_singleton]
    refine List.nodup_append.mpr ⟨h.nodup, List.pairwise_singleton _ _, ?_⟩
    intro ticket hmem other hother heq
    rw [heq, List.mem_singleton.mp hother] at hmem
    exact h.unspent p entry hp hmem

theorem inv_step (h : Inv s) {action : Action P} (hbacked : Backed s action)
    (hstep : (system P).step s action = some next) : Inv next := by
  cases action with
  | skip =>
      simp only [system, Option.some.injEq] at hstep
      exact hstep ▸ h
  | issue =>
      simp only [system, Option.some.injEq] at hstep
      exact hstep ▸ ⟨h.held, h.spent, h.apart, h.unspent, h.nodup⟩
  | take p =>
      simp only [system, Option.ite_none_right_eq_some, Option.some.injEq] at hstep
      exact hstep.2 ▸ h.take hbacked
  | use p =>
      obtain ⟨entry, hp, rfl⟩ := Option.map_eq_some_iff.mp hstep
      exact h.use hp

theorem matched_of_reachable (h : (system P).ReachableWith Backed s) :
    Matched (s.used.map Entry.issued) := by
  refine (h.invariant Inv ?_ fun _ _ _ hi hg hs => inv_step hi hg hs).matched
  rintro s ⟨hnone, hused⟩
  constructor
  · intro p entry hp
    rw [hnone p] at hp
    contradiction
  · simp [hused]
  · intro p q entry other hp
    rw [hnone p] at hp
    contradiction
  · simp [hused]
  · simp [hused]

end FarsightDriver.Foundation.Tickets
