import Courier.Exchange
import Courier.Proofs.Channel

/-!
# How the phase of a channel changes

Every change of the phase is noted. Of the operations of a channel only
`setPhase` changes it; all others are quiet.
-/

namespace Courier

namespace Phase

/-- The steps of a conversation. -/
inductive Step : Phase → Phase → Prop
  | ask : Step .idle .asking
  | grant : Step .asking .admitted
  | refuse : Step .asking .idle
  | play : Step .admitted .playing

/-- The changes lead from one phase to another, each of them by a step. -/
inductive Path : Phase → List (Phase × Phase) → Phase → Prop
  | nil {p : Phase} : Path p [] p
  | cons {p q r : Phase} {rest : List (Phase × Phase)} : Step p q → Path q rest r →
      Path p ((p, q) :: rest) r

theorem Path.append {p q r : Phase} {first second : List (Phase × Phase)} (h : p.Path first q)
    (h' : q.Path second r) : p.Path (first ++ second) r := by
  induction h with
  | nil => exact h'
  | cons hstep _ ih => exact .cons hstep (ih h')

end Phase

def Notice.phase? : Notice → Option (Phase × Phase)
  | .phase before after => some (before, after)
  | _ => none

def phasesOf (notices : List Notice) : List (Phase × Phase) := notices.filterMap Notice.phase?

theorem phasesOf_eq_nil {notices : List Notice} (h : ∀ n ∈ notices, n.phase? = none) :
    phasesOf notices = [] :=
  List.filterMap_eq_nil_iff.mpr h

theorem Outgoing.phasesOf_settle (o : Outgoing) (next acked : UInt32) :
    phasesOf (o.settle next acked).2.1 = [] := by
  refine phasesOf_eq_nil fun n hn => ?_
  rcases fate_cases o.flights (Window.index next) acked with ⟨hfate, -⟩ | ⟨hfate, -⟩ | ⟨hfate, -⟩
  · rw [(settle_unsent hfate).1] at hn
    cases hn
  · rw [(settle_acknowledged hfate).1] at hn
    obtain ⟨m, -, rfl⟩ := List.mem_map.mp hn
    rfl
  · rw [(settle_lost hfate).1.1] at hn
    simp only [List.cons_append, List.mem_cons, List.mem_append, List.mem_map] at hn
    rcases hn with rfl | ⟨m, -, rfl⟩ | ⟨m, -, rfl⟩
    · rfl
    · rfl
    · rfl

namespace Channel

def changes (c c' : Channel) : List (Phase × Phase) := phasesOf (c'.notices.drop c.notices.length)

structure Quiet (c c' : Channel) : Prop where
  peer_eq : c'.peer = c.peer
  phase_eq : c'.phase = c.phase
  changes_eq : c.changes c' = []

section
variable {c c' : Channel}

theorem changes_append {new : List Notice} (h : c'.notices = c.notices ++ new) :
    c.changes c' = phasesOf new := by
  rw [changes, h, List.drop_left]

theorem Quiet.of_notices (hpeer : c'.peer = c.peer) (hphase : c'.phase = c.phase)
    (hnotices : c'.notices = c.notices) : c.Quiet c' where
  peer_eq := hpeer
  phase_eq := hphase
  changes_eq := changes_append (hnotices.trans (List.append_nil _).symm)

theorem quiet_self (c : Channel) : c.Quiet c := .of_notices rfl rfl rfl

theorem quiet_settle (c : Channel) : c.Quiet c.settle.2 := by
  obtain ⟨-, -, -, -, hnotices⟩ := c.settle_spec
  refine ⟨?_, ?_, (changes_append hnotices).trans (Outgoing.phasesOf_settle _ _ _)⟩
  · simp only [settle]
    split
    · rfl
    · rfl
  · simp only [settle]
    split
    · rfl
    · rfl

theorem peer_acknowledge (c : Channel) (h : Header) (now : Time) :
    (c.acknowledge h now).peer = c.peer ∧ (c.acknowledge h now).phase = c.phase := by
  simp only [acknowledge]
  cases (c.departures.acknowledge h.ack h.ackBits now).1 <;> exact ⟨rfl, rfl⟩

theorem quiet_receive (c : Channel) (p : Packet) (size : Nat) (now : Time) :
    c.Quiet (c.receive p size now).2 := by
  have hsame :
      (c.receive p size now).2.peer = c.peer ∧ (c.receive p size now).2.phase = c.phase := by
    simp only [receive]
    cases (c.arrivals.record p.header.sequence).1 with
    | duplicate => exact ⟨rfl, rfl⟩
    | stale => exact ⟨rfl, rfl⟩
    | _ => exact peer_acknowledge _ p.header now
  obtain ⟨new, hnew, hkind⟩ := c.receive_notices p size now
  refine ⟨hsame.1, hsame.2, (changes_append hnew).trans (phasesOf_eq_nil fun n hn => ?_)⟩
  rcases hkind n hn with ⟨e, rfl⟩ | ⟨r, rfl⟩
  · rfl
  · rfl

@[simp] theorem peer_enqueue (c : Channel) (kind : Kind) (critical : Bool) (payload : Bytes) :
    (c.enqueue kind critical payload).2.peer = c.peer := rfl

@[simp] theorem phase_enqueue (c : Channel) (kind : Kind) (critical : Bool) (payload : Bytes) :
    (c.enqueue kind critical payload).2.phase = c.phase := rfl

@[simp] theorem notices_enqueue (c : Channel) (kind : Kind) (critical : Bool) (payload : Bytes) :
    (c.enqueue kind critical payload).2.notices = c.notices := rfl

theorem quiet_enqueue (c : Channel) (kind : Kind) (critical : Bool) (payload : Bytes) :
    c.Quiet (c.enqueue kind critical payload).2 :=
  .of_notices rfl rfl rfl

theorem quiet_transmit {σ : Type} [Transport σ] (c : Channel) (net : σ) (now : Time) :
    c.Quiet (c.transmit net now).2.1 := by
  simp only [transmit]
  split
  · exact .of_notices rfl rfl rfl
  · split
    · exact .of_notices rfl rfl rfl
    · exact .of_notices rfl rfl rfl

theorem quiet_takeNotices (c : Channel) : c.Quiet c.takeNotices.2 where
  peer_eq := rfl
  phase_eq := rfl
  changes_eq := by rw [changes, show c.takeNotices.2.notices = [] from rfl, List.drop_nil]; rfl

theorem notices_setPhase {phase : Phase} (h : c.phase ≠ phase) :
    (c.setPhase phase).notices = c.notices ++ [.phase c.phase phase] := by
  rw [setPhase, if_neg h]
  rfl

@[simp] theorem peer_setPhase (c : Channel) (phase : Phase) : (c.setPhase phase).peer = c.peer := by
  simp only [setPhase]
  split
  · rfl
  · rfl

theorem outgoing_setPhase (c : Channel) (phase : Phase) :
    (c.setPhase phase).outgoing = c.outgoing := by
  simp only [setPhase]
  split
  · rfl
  · rfl

theorem departures_setPhase (c : Channel) (phase : Phase) :
    (c.setPhase phase).departures = c.departures := by
  simp only [setPhase]
  split
  · rfl
  · rfl

theorem lastReceived_setPhase (c : Channel) (phase : Phase) :
    (c.setPhase phase).lastReceived = c.lastReceived := by
  simp only [setPhase]
  split
  · rfl
  · rfl

theorem arrivals_setPhase (c : Channel) (phase : Phase) :
    (c.setPhase phase).arrivals = c.arrivals := by
  simp only [setPhase]
  split
  · rfl
  · rfl

end

end Channel

end Courier
