import Courier.Proofs.Chronicle.Conservation
import Courier.Proofs.Manifest.Waiting

/-!
# What becomes of a lost packet

The critical messages of a lost packet are pending again, in front of all
others. The places of its other messages are noted before that, so those that
have to make way for a critical one are missed: they are neither dropped nor
reported, and stay in flight in the lost packet (`lost_disposed`).
-/

namespace Courier

open Place (offset)

namespace Slot

def load (packet : UInt8) : Slot → Multiset Message
  | .inFlight m p => if p = packet then {m} else 0
  | _ => 0

theorem load_returned {slot : Slot} {packet : UInt8} (h : slot.isInFlight = true) :
    slot.returned.load packet = 0 := by
  cases slot with
  | inFlight m p => rfl
  | _ => cases h

theorem load_released (packet : UInt8) (slot : Slot) : slot.released.load packet = 0 := by
  cases slot <;> rfl

theorem load_eq_zero {slot : Slot} {packet : UInt8} (h : slot.carriedBy packet = false) :
    slot.load packet = 0 := by
  cases slot <;> simp_all [load, carriedBy]

end Slot

namespace Outbox

def load (box : Outbox) (packet : UInt8) : Multiset Message := ∑ p : Place, (box.slot p).load packet

/-- The messages in flight at `places`. -/
def messagesAt (box : Outbox) (places : List Place) : List Message :=
  places.filterMap fun p => (box.slot p).inFlight?

section
variable {box : Outbox} {places : List Place} {packet : UInt8}

@[simp] theorem messagesAt_append (box : Outbox) (first second : List Place) :
    box.messagesAt (first ++ second) = box.messagesAt first ++ box.messagesAt second :=
  List.filterMap_append ..

theorem sum_load (h : ∀ p ∈ places, ∃ m, box.slot p = .inFlight m packet) :
    (places.map fun p => (box.slot p).load packet).sum =
      (box.messagesAt places : Multiset Message) := by
  induction places with
  | nil => rfl
  | cons p rest ih =>
    obtain ⟨m, hm⟩ := h p List.mem_cons_self
    rw [List.map_cons, List.sum_cons, ih fun q hq => h q (List.mem_cons_of_mem _ hq)]
    simp [messagesAt, hm, Slot.load, Slot.inFlight?]

theorem load_split (box : Outbox) (packet : UInt8) (hnd : places.Nodup) :
    box.load packet = (∑ p, if p ∈ places then 0 else (box.slot p).load packet) +
      (places.map fun p => (box.slot p).load packet).sum := by
  have hinside : (∑ p, if p ∈ places then (box.slot p).load packet else 0) =
      (places.map fun p => (box.slot p).load packet).sum := by
    rw [← List.sum_toFinset _ hnd, ← Finset.sum_filter]
    refine Finset.sum_congr ?_ fun _ _ => rfl
    ext p
    simp
  rw [← hinside, ← Finset.sum_add_distrib, load]
  refine Finset.sum_congr rfl fun p _ => ?_
  split
  · exact (zero_add _).symm
  · exact (add_zero _).symm

theorem Ring.load_eq (h : box.Ring) (packet : UInt8) :
    box.load packet = (box.messagesAt (box.carried packet) : Multiset Message) := by
  have hnone : (∑ p, if p ∈ box.carried packet then 0 else (box.slot p).load packet) = 0 := by
    refine Finset.sum_eq_zero fun p _ => ?_
    split
    · rfl
    next hp =>
      refine Slot.load_eq_zero (Bool.eq_false_iff.mpr fun hc => hp ?_)
      exact h.mem_carried.mpr (Slot.carriedBy_iff.mp hc)
  rw [box.load_split packet (box.nodup_carried packet), hnone, zero_add,
    sum_load fun p hp => h.mem_carried.mp hp]

end

end Outbox

namespace Outgoing

/-- The other messages of the packet at `index` whose slots are taken when its
critical messages are put back. -/
def displaced (o : Outgoing) (index : UInt32) : List Place :=
  (o.plain index).filter fun p => !decide (offset o.outbox.start p + (o.vital index).length < 32)

/-- The other messages of the packet at `index`, but for the displaced ones. -/
def droppable (o : Outgoing) (index : UInt32) : List Place :=
  (o.plain index).filter fun p => decide (offset o.outbox.start p + (o.vital index).length < 32)

section
variable {o : Outgoing} {index next acked : UInt32} {p : Place} {packet : UInt8}

theorem mem_droppable : p ∈ o.droppable index ↔
    p ∈ o.plain index ∧ offset o.outbox.start p + (o.vital index).length < 32 := by
  simp [droppable]

theorem vital_plain_perm (o : Outgoing) (index : UInt32) :
    (o.vital index ++ (o.droppable index ++ o.displaced index)).Perm
      (o.outbox.carried index.toUInt8) :=
  ((List.filter_append_perm _ _).append_left _).trans (List.filter_append_perm _ _)

theorem notMem_vital (h : o.outbox.Ring) (hp : p ∈ o.plain index) : p ∉ o.vital index := by
  intro hv
  obtain ⟨m, hm, hc⟩ := (mem_plain h).mp hp
  obtain ⟨m', hm', hc'⟩ := (mem_vital h).mp hv
  rw [hm, Slot.inFlight.injEq] at hm'
  rw [hm'.1, hc'] at hc
  cases hc

theorem released_eq (h : o.outbox.Ring) (index : UInt32) :
    ((o.outbox.requeue (o.vital index)).2.releaseAll (o.plain index)).1 =
      o.outbox.messagesAt (o.droppable index) := by
  have hrequeued := requeued_vital h index
  rw [(released_plain h index).messages_eq, Outbox.messagesAt, droppable, List.filterMap_filter]
  refine List.filterMap_congr fun p hp => ?_
  split
  next hlt =>
    rw [hrequeued.slot_of_lt (notMem_vital h hp) (of_decide_eq_true hlt)]
  next hge =>
    obtain ⟨m, hm⟩ := hrequeued.pending_of_le (p := p) (by simpa using hge)
    rw [hm]
    rfl

theorem load_lost (h : o.outbox.Ring) (index : UInt32) (packet : UInt8) (p : Place) :
    (((o.outbox.requeue (o.vital index)).2.releaseAll (o.plain index)).2.slot p).load packet =
      if o.outbox.origin (o.vital index) p ∈ o.vital index ++ o.droppable index then 0
      else (o.outbox.slot (o.outbox.origin (o.vital index) p)).load packet := by
  have hrequeued := requeued_vital h index
  have horigin {q : Place} (hq : q ∈ o.droppable index) :
      o.outbox.origin (o.vital index) q = q := by
    obtain ⟨hplain, hlt⟩ := mem_droppable.mp hq
    exact hrequeued.unmoved q (notMem_vital h hplain) (by omega)
  rw [(released_plain h index).slot_eq]
  by_cases hp : p ∈ o.plain index
  · rw [if_pos hp, Slot.load_released]
    by_cases hlt : offset o.outbox.start p + (o.vital index).length < 32
    · have hdroppable := mem_droppable.mpr ⟨hp, hlt⟩
      rw [horigin hdroppable, if_pos (List.mem_append_right _ hdroppable)]
    · -- what stood here was moved away, and what came here is pending
      obtain ⟨m, hm⟩ := hrequeued.pending_of_le (Nat.le_of_not_lt hlt)
      split
      · rfl
      next hnot =>
        rw [hrequeued.slot_eq, if_neg fun hv => hnot (List.mem_append_left _ hv)] at hm
        rw [hm]
        rfl
  · rw [if_neg hp, hrequeued.slot_eq]
    by_cases hv : o.outbox.origin (o.vital index) p ∈ o.vital index
    · obtain ⟨m, hm, -⟩ := (mem_vital h).mp hv
      rw [if_pos hv, if_pos (List.mem_append_left _ hv), Slot.load_returned (by rw [hm]; rfl)]
    · have hkept : o.outbox.origin (o.vital index) p ∉ o.vital index ++ o.droppable index := by
        rw [List.mem_append, not_or]
        refine ⟨hv, fun hd => hp ?_⟩
        rw [← hrequeued.injective (horigin hd)]
        exact (mem_droppable.mp hd).1
      rw [if_neg hv, if_neg hkept]

/-- Putting back and freeing take out of the ring's load what they say, and
nothing else. -/
theorem load_conserved (h : o.outbox.Ring) (index : UInt32) (packet : UInt8) :
    ((o.outbox.requeue (o.vital index)).2.releaseAll (o.plain index)).2.load packet +
        ((o.vital index ++ o.droppable index).map fun p => (o.outbox.slot p).load packet).sum =
      o.outbox.load packet := by
  have hnd : (o.vital index ++ o.droppable index).Nodup := by
    have hall := (o.vital_plain_perm index).nodup_iff.mpr (o.outbox.nodup_carried _)
    rw [← List.append_assoc] at hall
    exact (List.nodup_append.mp hall).1
  rw [o.outbox.load_split packet hnd, Outbox.load]
  refine congrArg (· + _) ?_
  exact Fintype.sum_bijective (o.outbox.origin (o.vital index))
    (Finite.injective_iff_bijective.mp (requeued_vital h index).injective) _ _
    (load_lost h index packet)

theorem carried_of_mem (h : o.outbox.Ring) (hp : p ∈ o.vital index ++ o.droppable index) :
    ∃ m, o.outbox.slot p = .inFlight m index.toUInt8 := by
  refine h.mem_carried.mp ((o.vital_plain_perm index).mem_iff.mp ?_)
  rw [← List.append_assoc]
  exact List.mem_append_left _ hp

/-- The messages of a packet are of these three sorts. -/
theorem load_sorted (h : o.outbox.Ring) (index : UInt32) :
    o.outbox.load index.toUInt8 =
      (o.outbox.messagesAt (o.vital index) ++ o.outbox.messagesAt (o.droppable index) ++
        o.outbox.messagesAt (o.displaced index) : List Message) := by
  rw [h.load_eq, ← Outbox.messagesAt_append, ← Outbox.messagesAt_append, List.append_assoc]
  exact Multiset.coe_eq_coe.mpr ((o.vital_plain_perm index).symm.filterMap _)

theorem load_of_lost (h : o.outbox.Ring) (index : UInt32) :
    ((o.outbox.requeue (o.vital index)).2.releaseAll (o.plain index)).2.load index.toUInt8 =
      (o.outbox.messagesAt (o.displaced index) : Multiset Message) := by
  have hconserved := load_conserved h index index.toUInt8
  rw [Outbox.sum_load fun p => carried_of_mem h, load_sorted h, Outbox.messagesAt_append,
    ← Multiset.coe_add _ (o.outbox.messagesAt (o.displaced index)), add_comm] at hconserved
  exact add_left_cancel hconserved

theorem load_of_other (h : o.outbox.Ring) (hne : packet ≠ index.toUInt8) :
    ((o.outbox.requeue (o.vital index)).2.releaseAll (o.plain index)).2.load packet =
      o.outbox.load packet := by
  have hnone :
      ((o.vital index ++ o.droppable index).map fun p =>
        (o.outbox.slot p).load packet).sum = 0 := by
    refine List.sum_eq_zero fun x hx => ?_
    obtain ⟨p, hp, rfl⟩ := List.mem_map.mp hx
    obtain ⟨m, hm⟩ := carried_of_mem h hp
    simp [hm, Slot.load, hne.symm]
  rw [← load_conserved h index packet, hnone, add_zero]

theorem pending_of_lost (h : o.outbox.Ring) (index : UInt32) :
    ((o.outbox.requeue (o.vital index)).2.releaseAll (o.plain index)).2.pending =
      o.outbox.messagesAt (o.vital index) ++ o.outbox.pending := by
  rw [(released_plain h index).pending_eq (requeued_vital h index).ring]
  refine h.pending_requeue ((h.inOrder_carried _).filter _) fun p hp => ?_
  obtain ⟨m, hm, -⟩ := (mem_vital h).mp hp
  exact ⟨m, _, hm⟩

theorem critical_of_mem_vital (h : o.outbox.Ring) {m : Message}
    (hm : m ∈ o.outbox.messagesAt (o.vital index)) : m.critical = true := by
  obtain ⟨p, hp, hm⟩ := List.mem_filterMap.mp hm
  obtain ⟨m', hslot, hc⟩ := (mem_vital h).mp hp
  rw [hslot] at hm
  cases hm
  exact hc

theorem critical_of_mem_plain (h : o.outbox.Ring) {m : Message}
    (hm : m ∈ o.outbox.messagesAt (o.plain index)) : m.critical = false := by
  obtain ⟨p, hp, hm⟩ := List.mem_filterMap.mp hm
  obtain ⟨m', hslot, hc⟩ := (mem_plain h).mp hp
  rw [hslot] at hm
  cases hm
  exact hc

theorem length_messagesAt_vital (h : o.outbox.Ring) (index : UInt32) :
    (o.outbox.messagesAt (o.vital index)).length = (o.outbox.requeue (o.vital index)).1 := by
  have hcarried : ∀ p ∈ o.vital index, ∃ m packet, o.outbox.slot p = .inFlight m packet := by
    intro p hp
    obtain ⟨m, hm, -⟩ := (mem_vital h).mp hp
    exact ⟨m, _, hm⟩
  have hcount : (o.outbox.requeue (o.vital index)).1 = (o.vital index).length :=
    (h.requeue ((h.inOrder_carried _).filter _) hcarried).1
  rw [hcount, Outbox.messagesAt, List.length_filterMap_eq_countP, List.countP_eq_length]
  intro p hp
  obtain ⟨m, packet, hm⟩ := hcarried p hp
  rw [hm]
  rfl

theorem of_settle_some {loss : Loss} (h : o.outbox.Ring)
    (hlost : (o.settle next acked).1 = some loss) :
    (o.flights.fate (Window.index next) acked = .sentCritical ∨
        o.flights.fate (Window.index next) acked = .sentPlain) ∧
      loss = { sequence := next - 32
               critical := o.flights.fate (Window.index next) acked == .sentCritical
               requeued := (o.outbox.messagesAt (o.vital (Window.index next))).length
               dropped := (o.outbox.messagesAt (o.droppable (Window.index next))).length } := by
  rw [length_messagesAt_vital h, ← released_eq h]
  cases hfate : o.flights.fate (Window.index next) acked with
  | unsent => simp [settle, hfate] at hlost
  | acknowledged => simp [settle, hfate] at hlost
  | sentCritical =>
    simp only [settle, hfate, lose, Option.some.injEq] at hlost
    exact ⟨.inl rfl, hlost.symm⟩
  | sentPlain =>
    simp only [settle, hfate, lose, Option.some.injEq] at hlost
    exact ⟨.inr rfl, hlost.symm⟩

end

end Outgoing

namespace Chronicle

variable {c : Chronicle}

/-- Whenever a packet is found to be lost, its critical messages are pending in
front of all others and reported as requeued, in their old order. Of its other
messages those that do not stand in one of the places that the requeued ones
need are dropped and reported. The packet goes on carrying the rest, and all
other packets what they carried. -/
theorem lost_disposed (h : Reachable Orderly c) {next acked : UInt32} {loss : Loss}
    (hlost : (c.channel.outgoing.settle next acked).1 = some loss) :
    let o := c.channel.outgoing
    let index := Window.index next
    let vital := o.outbox.messagesAt (o.vital index)
    let dropped := o.outbox.messagesAt (o.droppable index)
    let displaced := o.outbox.messagesAt (o.displaced index)
    let notices := (o.settle next acked).2.1
    let after := (o.settle next acked).2.2.outbox
    o.outbox.load index.toUInt8 = (vital ++ dropped ++ displaced : List Message) ∧
      (∀ m ∈ vital, m.critical = true) ∧ (∀ m ∈ dropped ++ displaced, m.critical = false) ∧
      loss.sequence = next - 32 ∧ loss.requeued = vital.length ∧ loss.dropped = dropped.length ∧
      notices = .lost loss.sequence loss.critical :: vital.map (.requeued ·.envelope) ++
        dropped.map (.dropped ·.envelope) ∧
      after.pending = vital ++ o.outbox.pending ∧
      after.load index.toUInt8 = (displaced : Multiset Message) ∧
      ∀ packet ≠ index.toUInt8, after.load packet = o.outbox.load packet := by
  have hring : c.channel.outgoing.outbox.Ring := h.intact.held.ring
  obtain ⟨hfate, rfl⟩ := Outgoing.of_settle_some hring hlost
  obtain ⟨⟨hnotices, hafter⟩, hplaces, -⟩ := Outgoing.settle_lost hfate
  rw [hplaces] at hnotices hafter
  intro o index vital dropped displaced notices after
  have hafter : after = ((o.outbox.requeue (o.vital index)).2.releaseAll (o.plain index)).2 := by
    rw [show after = _ from congrArg Outgoing.outbox hafter]
  have hsorts : ∀ m ∈ dropped ++ displaced, m.critical = false := by
    intro m hm
    rw [← Outbox.messagesAt_append] at hm
    have hplain : m ∈ o.outbox.messagesAt (o.plain index) :=
      ((List.filter_append_perm _ _).filterMap _).mem_iff.mp hm
    exact Outgoing.critical_of_mem_plain hring hplain
  refine ⟨Outgoing.load_sorted hring index, fun m => Outgoing.critical_of_mem_vital hring, hsorts,
    rfl, rfl, rfl, ?_, ?_, ?_, ?_⟩
  · rw [show notices = _ from hnotices, Outgoing.released_eq hring]
    rfl
  · rw [hafter]
    exact Outgoing.pending_of_lost hring index
  · rw [hafter]
    exact Outgoing.load_of_lost hring index
  · intro packet hne
    rw [hafter]
    exact Outgoing.load_of_other hring hne

def oneLost (payloads : List Payload) : Chronicle :=
  (payloads.map Action.enqueue ++ (List.replicate 32 [Action.settle, Action.build 0]).flatten).foldl
    step
    (start { ip := .v4 0, port := Packet.defaultPort } 0)

def mixed : Chronicle := oneLost [⟨.data, true, [7]⟩, ⟨.data, false, [8]⟩, ⟨.data, false, [9]⟩]

theorem lost_disposed_mixed :
    Reachable Orderly mixed ∧
      let o := mixed.channel.outgoing
      (o.settle 32 0).1 = some { sequence := 0, critical := true, requeued := 1, dropped := 1 } ∧
        (o.settle 32 0).2.1 =
          [.lost 0 true, .requeued ⟨.data, true, 0, 0, 1⟩, .dropped ⟨.data, false, 1, 0, 1⟩] ∧
        (o.settle 32 0).2.2.outbox.pending = [⟨.data, true, 0, 0, [7]⟩] ∧
        (o.settle 32 0).2.2.outbox.load 0 = {⟨.data, false, 2, 0, [9]⟩} := by
  have h : Reachable Orderly mixed := .run (.start _ _) (by decide +kernel)
  have hlost : (mixed.channel.outgoing.settle 32 0).1 =
      some { sequence := 0, critical := true, requeued := 1, dropped := 1 } := by decide +kernel
  have hindex : Window.index 32 = 0 := by decide
  have hvital : mixed.channel.outgoing.outbox.messagesAt (mixed.channel.outgoing.vital 0) =
      [⟨.data, true, 0, 0, [7]⟩] := by decide +kernel
  have hdropped : mixed.channel.outgoing.outbox.messagesAt (mixed.channel.outgoing.droppable 0) =
      [⟨.data, false, 1, 0, [8]⟩] := by decide +kernel
  have hdisplaced : mixed.channel.outgoing.outbox.messagesAt (mixed.channel.outgoing.displaced 0) =
      [⟨.data, false, 2, 0, [9]⟩] := by decide +kernel
  have hpending : mixed.channel.outgoing.outbox.pending = [] := by decide +kernel
  obtain ⟨-, -, -, -, -, -, hnotices, hafter, hload, -⟩ := lost_disposed h hlost
  rw [hindex, hvital, hdropped] at hnotices
  rw [hindex, hvital, hpending] at hafter
  rw [hindex, hdisplaced] at hload
  exact ⟨h, hlost, hnotices, hafter, hload⟩

/-- Of a critical message and one behind it, which their packet loses, the
second is not dropped. It stays in flight in the packet. -/
theorem lost_not_disposed :
    Reachable Orderly (oneLost [⟨.data, true, [7]⟩, ⟨.data, false, [8]⟩]) ∧
      let o := (oneLost [⟨.data, true, [7]⟩, ⟨.data, false, [8]⟩]).channel.outgoing
      o.outbox.slot ⟨1, by decide⟩ = .inFlight ⟨.data, false, 1, 0, [8]⟩ 0 ∧
        (o.settle 32 0).1 = some { sequence := 0, critical := true, requeued := 1, dropped := 0 } ∧
        (o.settle 32 0).2.1 = [.lost 0 true, .requeued ⟨.data, true, 0, 0, 1⟩] ∧
        (o.settle 32 0).2.2.outbox.slot .origin = .inFlight ⟨.data, false, 1, 0, [8]⟩ 0 := by
  have h : Reachable Orderly (oneLost [⟨.data, true, [7]⟩, ⟨.data, false, [8]⟩]) :=
    .run (.start _ _) (by decide +kernel)
  refine ⟨h, ?_⟩
  decide +kernel

end Chronicle

end Courier
