import Courier.Outgoing
import Courier.Proofs.Outbox.Drain
import Courier.Proofs.Outbox.Requeue
import Courier.Proofs.Window

/-!
# What confirming and settling packets does to the outbox

Confirming frees exactly the slots of the packets named (`confirm_eq`).
Settling frees the slots of an acknowledged packet (`settle_acknowledged`). Of a
lost one it puts the critical messages back and frees the others (`settle_lost`).
-/

namespace Courier.Outgoing

open Outbox (Released Requeued)

/-- The slots that hold critical messages of the packet at `index`, oldest first. -/
def vital (o : Outgoing) (index : UInt32) : List Place :=
  (o.outbox.carried index.toUInt8).filter fun i => (o.outbox.slot i).inFlight?.any (·.critical)

/-- The slots that hold other messages of the packet at `index`, oldest first. -/
def plain (o : Outgoing) (index : UInt32) : List Place :=
  (o.outbox.carried index.toUInt8).filter fun i => !(o.outbox.slot i).inFlight?.any (·.critical)

def carriedAll (o : Outgoing) (indices : List UInt32) : List Place :=
  indices.flatMap fun i => o.outbox.carried i.toUInt8

/-- The slots that a report confirms which newly acknowledges the packets in `newly`. -/
def confirmedPlaces (o : Outgoing) (newly : UInt32) : List Place :=
  o.carriedAll (Window.indices.filter fun i => Window.has newly i && Window.has o.flights.sent i)

/-- The slots whose messages go back to the front when the packet before `next` is settled. -/
def lostPlaces (o : Outgoing) (next acked : UInt32) : List Place :=
  match o.flights.fate (Window.index next) acked with
  | .sentCritical | .sentPlain => o.vital (Window.index next)
  | _ => []

def settledPlaces (o : Outgoing) (next acked : UInt32) : List Place :=
  match o.flights.fate (Window.index next) acked with
  | .acknowledged => o.outbox.carried (Window.index next).toUInt8
  | _ => []

section
variable {o : Outgoing} {index next acked newly : UInt32} {p : Place}

theorem mem_filter_carried (h : o.outbox.Ring) {test : Place → Bool} {want : Message → Prop}
    (htest : ∀ m packet, o.outbox.slot p = .inFlight m packet → (test p = true ↔ want m)) :
    p ∈ (o.outbox.carried index.toUInt8).filter test ↔
      ∃ m, o.outbox.slot p = .inFlight m index.toUInt8 ∧ want m := by
  rw [List.mem_filter, h.mem_carried]
  constructor
  · rintro ⟨⟨m, hm⟩, hp⟩
    exact ⟨m, hm, (htest m _ hm).mp hp⟩
  · rintro ⟨m, hm, hwant⟩
    exact ⟨⟨m, hm⟩, (htest m _ hm).mpr hwant⟩

theorem mem_vital (h : o.outbox.Ring) : p ∈ o.vital index ↔
    ∃ m, o.outbox.slot p = .inFlight m index.toUInt8 ∧ m.critical = true :=
  mem_filter_carried h fun m packet hm => by simp [hm, Slot.inFlight?]

theorem mem_plain (h : o.outbox.Ring) : p ∈ o.plain index ↔
    ∃ m, o.outbox.slot p = .inFlight m index.toUInt8 ∧ m.critical = false :=
  mem_filter_carried h fun m packet hm => by simp [hm, Slot.inFlight?]

theorem requeued_vital (h : o.outbox.Ring) (index : UInt32) :
    Requeued o.outbox (o.outbox.requeue (o.vital index)).2 (o.vital index) := by
  refine (h.requeue ((h.inOrder_carried _).filter _) fun i hi => ?_).2
  obtain ⟨m, hm, -⟩ := (mem_vital h).mp hi
  exact ⟨m, _, hm⟩

theorem released_plain (h : o.outbox.Ring) (index : UInt32) :
    Released (o.outbox.requeue (o.vital index)).2
      ((o.outbox.requeue (o.vital index)).2.releaseAll (o.plain index)).2 (o.plain index)
      ((o.outbox.requeue (o.vital index)).2.releaseAll (o.plain index)).1 :=
  (requeued_vital h index).ring.releaseAll ((o.outbox.nodup_carried _).filter _)

theorem released_carried (h : o.outbox.Ring) (packet : UInt8) :
    Released o.outbox (o.outbox.releaseAll (o.outbox.carried packet)).2 (o.outbox.carried packet)
      (o.outbox.releaseAll (o.outbox.carried packet)).1 :=
  h.releaseAll (o.outbox.nodup_carried packet)

-- ---------------------------------------------------------------------------
-- Confirming
-- ---------------------------------------------------------------------------

theorem nodup_carriedAll (o : Outgoing) {indices : List UInt32}
    (hnd : (indices.map UInt32.toUInt8).Nodup) : (o.carriedAll indices).Nodup := by
  induction indices with
  | nil => exact List.nodup_nil
  | cons i rest ih =>
    obtain ⟨hi, hnd⟩ := List.nodup_cons.mp hnd
    rw [carriedAll, List.flatMap_cons]
    refine List.nodup_append.mpr ⟨o.outbox.nodup_carried _, ih hnd, ?_⟩
    rintro p hp q hq rfl
    obtain ⟨j, hj, hq⟩ := List.mem_flatMap.mp hq
    have hpi := (List.mem_filter.mp hp).2
    have hpj := (List.mem_filter.mp hq).2
    obtain ⟨m, hm⟩ := Slot.carriedBy_iff.mp hpi
    obtain ⟨m', hm'⟩ := Slot.carriedBy_iff.mp hpj
    rw [hm, Slot.inFlight.injEq] at hm'
    exact hi (hm'.2 ▸ List.mem_map_of_mem hj)

theorem deliverAll_eq (h : o.outbox.Ring) {indices : List UInt32}
    (hnd : (indices.map UInt32.toUInt8).Nodup) :
    o.deliverAll indices =
      ((o.outbox.releaseAll (o.carriedAll indices)).1.map fun m => .delivered m.envelope,
        { o with outbox := (o.outbox.releaseAll (o.carriedAll indices)).2 }) := by
  induction indices generalizing o with
  | nil => rfl
  | cons i rest ih =>
    obtain ⟨hi, hnd⟩ := List.nodup_cons.mp hnd
    have hfirst := released_carried h i.toUInt8
    have hcarried : (o.deliver i).2.carriedAll rest = o.carriedAll rest := by
      refine List.flatMap_congr fun j hj => hfirst.carried_eq fun p hp => ?_
      obtain ⟨m, hm⟩ := h.mem_carried.mp hp
      have hne : i.toUInt8 ≠ j.toUInt8 := fun e => hi (e ▸ List.mem_map_of_mem hj)
      simpa [hm, Slot.carriedBy] using hne
    have hrest := ih (o := (o.deliver i).2) hfirst.ring hnd
    rw [hcarried] at hrest
    have hall : o.carriedAll (i :: rest) = o.outbox.carried i.toUInt8 ++ o.carriedAll rest :=
      List.flatMap_cons ..
    simp only [deliverAll, hrest, hall, Outbox.releaseAll_append, List.map_append]
    rfl

theorem nodup_indices (test : UInt32 → Bool) :
    ((Window.indices.filter test).map UInt32.toUInt8).Nodup := by
  have h : (Window.indices.map UInt32.toUInt8).Nodup := by decide
  exact (List.filter_sublist.map _).nodup h

theorem confirm_eq (h : o.outbox.Ring) (newly : UInt32) :
    o.confirm newly =
      ((o.outbox.releaseAll (o.confirmedPlaces newly)).1.map fun m => .delivered m.envelope,
        { o with outbox := (o.outbox.releaseAll (o.confirmedPlaces newly)).2 }) :=
  deliverAll_eq h (nodup_indices _)

theorem released_confirmed (h : o.outbox.Ring) (newly : UInt32) :
    Released o.outbox (o.outbox.releaseAll (o.confirmedPlaces newly)).2 (o.confirmedPlaces newly)
      (o.outbox.releaseAll (o.confirmedPlaces newly)).1 :=
  h.releaseAll (o.nodup_carriedAll (nodup_indices _))

-- ---------------------------------------------------------------------------
-- Settling
-- ---------------------------------------------------------------------------

/-- What is known about a packet, by the bits that tell it. -/
theorem fate_cases (f : Flights) (index acked : UInt32) :
    (f.fate index acked = .unsent ∧ Window.has f.sent index = false) ∨
      (f.fate index acked = .acknowledged ∧ Window.has f.sent index = true ∧
        Window.has acked index = true) ∨
      ((f.fate index acked = .sentCritical ∨ f.fate index acked = .sentPlain) ∧
        Window.has f.sent index = true ∧ Window.has acked index = false) := by
  simp only [Flights.fate]
  split
  next h => exact .inl ⟨rfl, by simpa using h⟩
  next h =>
    have hsent : Window.has f.sent index = true := by simpa using h
    split
    next hacked => exact .inr (.inl ⟨rfl, hsent, hacked⟩)
    next hacked =>
      have hacked : Window.has acked index = false := by simpa using hacked
      split
      · exact .inr (.inr ⟨.inl rfl, hsent, hacked⟩)
      · exact .inr (.inr ⟨.inr rfl, hsent, hacked⟩)

theorem fate_unsent (hsent : Window.has o.flights.sent next = false) :
    o.flights.fate (Window.index next) acked = .unsent := by
  rw [← Window.has_index] at hsent
  rcases fate_cases o.flights (Window.index next) acked with ⟨hfate, -⟩ | ⟨-, hnot, -⟩
    | ⟨-, hnot, -⟩
  · exact hfate
  · cases hsent.symm.trans hnot
  · cases hsent.symm.trans hnot

theorem fate_lost (hsent : Window.has o.flights.sent next = true)
    (hacked : Window.has acked next = false) :
    o.flights.fate (Window.index next) acked = .sentCritical ∨
      o.flights.fate (Window.index next) acked = .sentPlain := by
  rw [← Window.has_index] at hsent hacked
  rcases fate_cases o.flights (Window.index next) acked with ⟨-, hnot⟩ | ⟨-, -, hnot⟩ | ⟨hfate, -⟩
  · cases hsent.symm.trans hnot
  · cases hacked.symm.trans hnot
  · exact hfate

theorem settle_unsent (h : o.flights.fate (Window.index next) acked = .unsent) :
    o.settle next acked = (none, [], { o with flights := o.flights.clear (Window.index next) }) ∧
      o.lostPlaces next acked = [] ∧ o.settledPlaces next acked = [] := by
  simp only [settle, lostPlaces, settledPlaces, h, and_self]

theorem settle_acknowledged (h : o.flights.fate (Window.index next) acked = .acknowledged) :
    o.settle next acked =
        (none, (o.outbox.releaseAll (o.settledPlaces next acked)).1.map fun m =>
          .delivered m.envelope,
          { outbox := (o.outbox.releaseAll (o.settledPlaces next acked)).2
            flights := o.flights.clear (Window.index next) }) ∧
      o.lostPlaces next acked = [] ∧
      o.settledPlaces next acked = o.outbox.carried (Window.index next).toUInt8 := by
  simp only [settle, lostPlaces, settledPlaces, h, deliver, and_self]

/-- The critical messages of a lost packet are put back, and after that the others freed. -/
theorem settle_lost (h : o.flights.fate (Window.index next) acked = .sentCritical ∨
      o.flights.fate (Window.index next) acked = .sentPlain) :
    ((o.settle next acked).2.1 =
        .lost (next - 32) (o.flights.fate (Window.index next) acked == .sentCritical) ::
          ((o.lostPlaces next acked).filterMap fun i => (o.outbox.slot i).inFlight?).map
            (fun m => .requeued m.envelope) ++
          ((o.outbox.requeue (o.lostPlaces next acked)).2.releaseAll
            (o.plain (Window.index next))).1.map (fun m => .dropped m.envelope) ∧
      (o.settle next acked).2.2 =
        { outbox := ((o.outbox.requeue (o.lostPlaces next acked)).2.releaseAll
            (o.plain (Window.index next))).2
          flights := o.flights.clear (Window.index next) }) ∧
      o.lostPlaces next acked = o.vital (Window.index next) ∧ o.settledPlaces next acked = [] := by
  rcases h with h | h <;>
    simp only [settle, lostPlaces, settledPlaces, h, lose, vital, plain, and_self]

theorem lost_mem_settle {sequence : UInt32} {critical : Bool}
    (h : .lost sequence critical ∈ (o.settle next acked).2.1) :
    sequence = next - 32 ∧ Window.has acked next = false := by
  rcases fate_cases o.flights (Window.index next) acked with ⟨hfate, -⟩ | ⟨hfate, -⟩
    | ⟨hfate, -, hacked⟩
  · rw [(settle_unsent hfate).1] at h
    cases h
  · rw [(settle_acknowledged hfate).1] at h
    obtain ⟨m, -, hm⟩ := List.mem_map.mp h
    cases hm
  · rw [(settle_lost hfate).1.1] at h
    rw [Window.has_index] at hacked
    simp only [List.cons_append, List.mem_cons, List.mem_append, List.mem_map, Notice.lost.injEq,
      reduceCtorEq, and_false, exists_false, or_false] at h
    exact ⟨h.1, hacked⟩

theorem mem_deliverAll {n : Notice} {indices : List UInt32} (h : n ∈ (o.deliverAll indices).1) :
    ∃ e, n = .delivered e := by
  induction indices generalizing o with
  | nil => cases h
  | cons i rest ih =>
    rcases List.mem_append.mp h with h | h
    · obtain ⟨m, -, rfl⟩ := List.mem_map.mp h
      exact ⟨_, rfl⟩
    · exact ih h

end

end Courier.Outgoing
