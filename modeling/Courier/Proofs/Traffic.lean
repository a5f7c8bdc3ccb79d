import Mathlib.Algebra.GroupWithZero.Nat
import Mathlib.Data.List.Forall2
import Courier.Exchange

/-!
# Counters only count up

Each number of a `Traffic` that counts something is read by `count`, so that one
statement holds of all of them. No operation of a channel lowers one
(`Channel.Counted`), and so none lowers their sum over many channels
(`Channel.total_le`).
-/

namespace Courier

namespace Traffic

inductive Counter where
  | packetsSent
  | packetsReceived
  | packetsLost
  | packetsDuplicate
  | packetsMalformed
  | bytesSent
  | bytesReceived
  | messagesSent
  | messagesReceived
  | messagesDelivered
  | messagesRequeued
  | messagesDropped
  | sendErrors
  deriving DecidableEq, Repr

def count (t : Traffic) : Counter → Nat
  | .packetsSent => t.packetsSent
  | .packetsReceived => t.packetsReceived
  | .packetsLost => t.packetsLost
  | .packetsDuplicate => t.packetsDuplicate
  | .packetsMalformed => t.packetsMalformed
  | .bytesSent => t.bytesSent
  | .bytesReceived => t.bytesReceived
  | .messagesSent => t.messagesSent
  | .messagesReceived => t.messagesReceived
  | .messagesDelivered => t.messagesDelivered
  | .messagesRequeued => t.messagesRequeued
  | .messagesDropped => t.messagesDropped
  | .sendErrors => t.sendErrors

@[simp] theorem count_updateLoss (t : Traffic) (k : Counter) :
    t.updateLoss.count k = t.count k := by
  cases k with
  | _ => rfl

@[simp] theorem count_add (t u : Traffic) (k : Counter) :
    (t.add u).count k = t.count k + u.count k := by
  cases k with
  | _ => rfl

theorem count_start (k : Counter) : ({} : Traffic).count k = 0 := by
  cases k with
  | _ => rfl

end Traffic

namespace Channel

/-- The same channel later: no counter went down. -/
structure Counted (c c' : Channel) : Prop where
  peer_eq : c'.peer = c.peer
  count_le : ∀ k, c.traffic.count k ≤ c'.traffic.count k

section
variable {c c' c'' : Channel}

theorem Counted.of_traffic (hpeer : c'.peer = c.peer) (htraffic : c'.traffic = c.traffic) :
    c.Counted c' :=
  ⟨hpeer, fun k => Nat.le_of_eq (by rw [htraffic])⟩

theorem counted_self (c : Channel) : c.Counted c := .of_traffic rfl rfl

theorem Counted.trans (h : c.Counted c') (h' : c'.Counted c'') : c.Counted c'' :=
  ⟨h'.peer_eq.trans h.peer_eq, fun k => Nat.le_trans (h.count_le k) (h'.count_le k)⟩

theorem counted_settle (c : Channel) : c.Counted c.settle.2 := by
  simp only [settle]
  split
  · exact .of_traffic rfl rfl
  · refine ⟨rfl, fun k => ?_⟩
    rw [Traffic.count_updateLoss]
    cases k with
    | packetsLost | messagesRequeued | messagesDropped => exact Nat.le_add_right _ _
    | _ => exact Nat.le_refl _

theorem counted_acknowledge (c : Channel) (h : Header) (now : Time) :
    c.Counted (c.acknowledge h now) := by
  simp only [acknowledge]
  cases (c.departures.acknowledge h.ack h.ackBits now).1 with
  | applied newly =>
    refine ⟨rfl, fun k => ?_⟩
    cases k with
    | messagesDelivered => exact Nat.le_add_right _ _
    | _ => exact Nat.le_refl _
  | _ => exact .of_traffic rfl rfl

theorem counted_take (c : Channel) (p : Packet) (size : Nat) (now : Time) :
    c.Counted (c.take p size now).2 := by
  have harrived (d : Channel) : d.Counted
      ({ d with
        traffic := { d.traffic with
          packetsReceived := d.traffic.packetsReceived + 1
          bytesReceived := d.traffic.bytesReceived + size } }.touch now) := by
    refine ⟨rfl, fun k => ?_⟩
    cases k with
    | packetsReceived | bytesReceived => exact Nat.le_add_right _ _
    | _ => exact Nat.le_refl _
  have hread (d : Channel) (assembly : Assembly) : d.Counted
      { d with
        assembly
        traffic :=
          { d.traffic with messagesReceived := d.traffic.messagesReceived + p.messages.length }
            } := by
    refine ⟨rfl, fun k => ?_⟩
    cases k with
    | messagesReceived => exact Nat.le_add_right _ _
    | _ => exact Nat.le_refl _
  exact ((harrived c).trans (counted_acknowledge _ p.header now)).trans (hread _ _)

theorem counted_receive (c : Channel) (p : Packet) (size : Nat) (now : Time) :
    c.Counted (c.receive p size now).2 := by
  have htaken {d : Channel} (hpeer : d.peer = c.peer) (htraffic : d.traffic = c.traffic) :
      c.Counted (d.take p size now).2 :=
        (Counted.of_traffic hpeer htraffic).trans (d.counted_take p size now)
  simp only [receive]
  cases (c.arrivals.record p.header.sequence).1 with
  | duplicate | stale =>
    refine ⟨rfl, fun k => ?_⟩
    cases k with
    | packetsDuplicate => exact Nat.le_add_right _ _
    | _ => exact Nat.le_refl _
  | _ =>
    dsimp only
    exact htaken rfl rfl

theorem counted_enqueue (c : Channel) (kind : Kind) (critical : Bool) (payload : Bytes) :
    c.Counted (c.enqueue kind critical payload).2 := .of_traffic rfl rfl

theorem counted_setPhase (c : Channel) (phase : Phase) : c.Counted (c.setPhase phase) := by
  simp only [setPhase]
  split
  · exact .of_traffic rfl rfl
  · exact .of_traffic rfl rfl

theorem counted_recordMalformed (c : Channel) : c.Counted c.recordMalformed := by
  refine ⟨rfl, fun k => ?_⟩
  cases k with
  | packetsMalformed => exact Nat.le_add_right _ _
  | _ => exact Nat.le_refl _

theorem counted_build (c : Channel) (now : Time) : c.Counted (c.build now).2 := by
  refine ⟨rfl, fun k => ?_⟩
  cases k with
  | messagesSent => exact Nat.le_add_right _ _
  | _ => exact Nat.le_refl _

theorem counted_recordSent (c : Channel) (bytes : Nat) : c.Counted (c.recordSent bytes) := by
  refine ⟨rfl, fun k => ?_⟩
  rw [recordSent, Traffic.count_updateLoss]
  cases k with
  | packetsSent | bytesSent => exact Nat.le_add_right _ _
  | _ => exact Nat.le_refl _

theorem counted_recordSendError (c : Channel) : c.Counted c.recordSendError := by
  refine ⟨rfl, fun k => ?_⟩
  cases k with
  | sendErrors => exact Nat.le_add_right _ _
  | _ => exact Nat.le_refl _

theorem counted_transmit {σ : Type} [Transport σ] (c : Channel) (net : σ) (now : Time) :
    c.Counted (c.transmit net now).2.1 := by
  refine (c.counted_build now).trans ?_
  simp only [transmit]
  split
  · exact counted_recordSendError _
  · split
    · exact counted_recordSent _ _
    · exact counted_recordSendError _

theorem counted_takeNotices (c : Channel) : c.Counted c.takeNotices.2 := .of_traffic rfl rfl

end

-- ---------------------------------------------------------------------------
-- Many channels
-- ---------------------------------------------------------------------------

def total (k : Traffic.Counter) (cs : List Channel) : Nat := (cs.map (·.traffic.count k)).sum

section
variable {k : Traffic.Counter} {cs cs' : List Channel}

@[simp] theorem total_nil : total k [] = 0 := rfl

@[simp] theorem total_cons (c : Channel) : total k (c :: cs) = c.traffic.count k + total k cs :=
  List.sum_cons

@[simp] theorem total_append : total k (cs ++ cs') = total k cs + total k cs' := by
  rw [total, List.map_append, List.sum_append]
  rfl

theorem total_le (h : List.Forall₂ Counted cs cs') : total k cs ≤ total k cs' := by
  induction h with
  | nil => exact Nat.le_refl _
  | cons hc _ ih =>
    rw [total_cons, total_cons]
    exact Nat.add_le_add (hc.count_le k) ih

theorem total_filter (p : Channel → Bool) (cs : List Channel) :
    total k (cs.filter p) + total k (cs.filter fun c => !p c) = total k cs := by
  induction cs with
  | nil => rfl
  | cons c rest ih =>
    cases hp : p c with
    | true =>
      simp [hp]
      omega
    | false =>
      simp [hp]
      omega

theorem count_foldl_add (t : Traffic) (cs : List Channel) :
    (cs.foldl (fun sum c => sum.add c.traffic) t).count k = t.count k + total k cs := by
  induction cs generalizing t with
  | nil => rfl
  | cons c rest ih => rw [List.foldl_cons, ih, Traffic.count_add, total_cons, Nat.add_assoc]

end

end Channel

end Courier
