import Courier.Proofs.Outbox.Ring

/-!
# Putting back what a packet carried

Requeueing exchanges slots, so later slots of the same packet might be moved
before their turn. They are not: slots are put back youngest first, and each
goes to the place in front of the pending ones, behind all that are still to
come. `origin` says where the content of a slot was before.
-/

namespace Courier

namespace Place

def exchange (i j p : Place) : Place := if p = j then i else if p = i then j else p

theorem forward_size (p : Place) : p.forward 32 = p := by
  apply Fin.ext
  simp only [forward]
  omega

theorem exchange_exchange (i j p : Place) : exchange i j (exchange i j p) = p := by
  simp only [exchange]
  repeat' split
  all_goals simp_all

theorem exchange_injective (i j : Place) : Function.Injective (exchange i j) := by
  intro p q h
  rw [← exchange_exchange i j p, h, exchange_exchange]

end Place

namespace Slot

def returned : Slot → Slot
  | .inFlight m _ => .pending m
  | slot => slot

end Slot

namespace Outbox

open Place (offset)

/-- Where the content of each slot was before `places` were requeued. -/
def origin (box : Outbox) : List Place → Place → Place
  | [], p => p
  | i :: rest, p =>
    let after := (box.requeue rest).2
    match after.slot i with
    | .inFlight .. => box.origin rest (Place.exchange i after.start.previous p)
    | _ => box.origin rest p

/-- Places in the order in which the free region is passed. -/
def InOrder (box : Outbox) (places : List Place) : Prop :=
  places.Pairwise fun p q => offset box.start p < offset box.start q

theorem InOrder.room {box : Outbox} {i : Place} {rest : List Place} (h : box.InOrder (i :: rest)) :
    offset box.start i + rest.length < 32 := by
  induction rest generalizing i with
  | nil => exact Place.offset_lt box.start i
  | cons j rest ih =>
    obtain ⟨hi, hrest⟩ := List.pairwise_cons.mp h
    have hij := hi j List.mem_cons_self
    have := ih hrest
    simp only [List.length_cons]
    omega

theorem Ring.inOrder_carried {box : Outbox} (h : box.Ring) (packet : UInt8) :
    box.InOrder (box.carried packet) := by
  refine List.Pairwise.filter _ ?_
  rw [freeRegion, List.pairwise_map]
  refine List.Pairwise.imp_of_mem (fun {j k} hj hk hjk => ?_) List.pairwise_lt_range
  have hl := h.length_le
  simp only [List.mem_range, capacity] at hj hk
  rw [h.next_eq, Place.forward_forward, Place.forward_forward, Place.offset_forward _ (by omega),
    Place.offset_forward _ (by omega)]
  omega

/-- What requeueing `places` does, slot by slot. -/
structure Requeued (box after : Outbox) (places : List Place) : Prop where
  ring : after.Ring
  length_eq : after.length = box.length + places.length
  start_eq : after.start = box.start.forward (32 - places.length)
  nextId_eq : after.nextId = box.nextId
  injective : Function.Injective (box.origin places)
  unmoved : ∀ p, p ∉ places → offset box.start p < 32 - places.length → box.origin places p = p
  slot_eq : ∀ p, after.slot p =
    if box.origin places p ∈ places then (box.slot (box.origin places p)).returned
    else box.slot (box.origin places p)

section
variable {box after : Outbox} {i p : Place} {m : Message} {packet : UInt8}
  {places rest : List Place}

theorem Requeued.stays (h : Requeued box after rest) (hnot : i ∉ rest)
    (hroom : offset box.start i + rest.length < 32) :
    box.origin rest i = i ∧ after.slot i = box.slot i := by
  have hunmoved := h.unmoved i hnot (by omega)
  refine ⟨hunmoved, ?_⟩
  rw [h.slot_eq, hunmoved, if_neg hnot]

theorem requeue_cons (hslot : (box.requeue rest).2.slot i = .inFlight m packet) :
    box.requeue (i :: rest) = ((box.requeue rest).1 + 1, (box.requeue rest).2.restore i m) ∧
      ∀ p, box.origin (i :: rest) p =
        box.origin rest (Place.exchange i (box.requeue rest).2.start.previous p) := by
  refine ⟨?_, fun p => ?_⟩
  · simp only [Outbox.requeue, hslot]
  · simp only [origin, hslot]

theorem Requeued.previous_eq (h : Requeued box after rest) (hroom : rest.length < 32) :
    after.start.previous = box.start.forward (31 - rest.length) := by
  rw [h.start_eq, Place.previous, Place.forward_forward,
    show 32 - rest.length + 31 = (31 - rest.length) + 32 by omega, ← Place.forward_forward,
    Place.forward_size]

theorem Requeued.slot_restored (h : Requeued box after rest) (hi : box.slot i = .inFlight m packet)
    (hself : box.origin rest i = i) (p : Place) :
    (after.restore i m).slot p =
      if box.origin rest (Place.exchange i after.start.previous p) ∈ i :: rest then
        (box.slot (box.origin rest (Place.exchange i after.start.previous p))).returned
      else box.slot (box.origin rest (Place.exchange i after.start.previous p)) := by
  -- only the content of `i` itself comes from `i`
  have helse (q : Place) (hq : q ≠ i) : after.slot q =
      if box.origin rest q ∈ i :: rest then (box.slot (box.origin rest q)).returned
      else box.slot (box.origin rest q) := by
    have hne : box.origin rest q ≠ i := fun e => hq (h.injective (e.trans hself.symm))
    simp only [List.mem_cons, hne, false_or]
    exact h.slot_eq q
  rw [slot_restore]
  by_cases hpt : p = after.start.previous
  · rw [if_pos hpt, Place.exchange, if_pos hpt, hself, if_pos List.mem_cons_self, hi]
    rfl
  · rw [if_neg hpt, Place.exchange, if_neg hpt]
    by_cases hpi : p = i
    · rw [if_pos hpi, if_pos hpi]
      exact helse _ fun e => hpt (hpi.trans e.symm)
    · rw [if_neg hpi, if_neg hpi]
      exact helse p hpi

theorem Requeued.cons (h : Requeued box (box.requeue rest).2 rest)
    (hi : box.slot i = .inFlight m packet) (hnot : i ∉ rest)
    (hroom : offset box.start i + rest.length < 32) :
    Requeued box ((box.requeue rest).2.restore i m) (i :: rest) := by
  obtain ⟨hself, hslot⟩ := h.stays hnot hroom
  rw [hi] at hslot
  obtain ⟨-, horigin⟩ := requeue_cons hslot
  have hback := h.previous_eq (by omega)
  refine ⟨h.ring.restore hslot, ?_, ?_, h.nextId_eq, ?_, ?_, ?_⟩
  · show (box.requeue rest).2.length + 1 = _
    rw [h.length_eq, List.length_cons]
    omega
  · show (box.requeue rest).2.start.previous = _
    rw [hback, List.length_cons]
    congr 1
    omega
  · intro p q hpq
    rw [horigin, horigin] at hpq
    exact Place.exchange_injective _ _ (h.injective hpq)
  · intro p hp hlt
    rw [List.mem_cons, not_or] at hp
    obtain ⟨hpi, hp⟩ := hp
    rw [List.length_cons] at hlt
    have hpt : p ≠ (box.requeue rest).2.start.previous := by
      rintro rfl
      rw [hback, Place.offset_forward _ (by omega)] at hlt
      omega
    rw [horigin, Place.exchange, if_neg hpt, if_neg hpi]
    exact h.unmoved p hp (by omega)
  · intro p
    rw [horigin]
    exact h.slot_restored hi hself p

theorem Ring.requeue (h : box.Ring) (horder : box.InOrder places)
    (hcarried : ∀ i ∈ places, ∃ m packet, box.slot i = .inFlight m packet) :
    (box.requeue places).1 = places.length ∧ Requeued box (box.requeue places).2 places := by
  induction places with
  | nil =>
    refine ⟨rfl, h, rfl, ?_, rfl, fun p q hpq => hpq, fun p _ _ => rfl, fun p => ?_⟩
    · exact (Place.forward_size box.start).symm
    · simp only [List.not_mem_nil, if_false]
      rfl
  | cons i rest ih =>
    have hroom := horder.room
    obtain ⟨hfirst, horder⟩ := List.pairwise_cons.mp horder
    obtain ⟨hcount, hrest⟩ := ih horder fun j hj => hcarried j (List.mem_cons_of_mem _ hj)
    obtain ⟨m, packet, hi⟩ := hcarried i List.mem_cons_self
    have hnot : i ∉ rest := fun hmem => Nat.lt_irrefl _ (hfirst i hmem)
    obtain ⟨hrequeue, -⟩ := requeue_cons ((hrest.stays hnot hroom).2.trans hi)
    rw [hrequeue]
    exact ⟨congrArg (· + 1) hcount, hrest.cons hi hnot hroom⟩

/-- The places in front of the pending slots are where messages are put back. -/
theorem Requeued.pending_of_le (h : Requeued box after places)
    (hp : 32 ≤ offset box.start p + places.length) : ∃ m, after.slot p = .pending m := by
  have hoff := Place.offset_lt box.start p
  have hle := h.ring.length_le
  have hlen := h.length_eq
  rw [h.ring.pending_iff, h.start_eq, hlen]
  simp only [offset, Place.forward] at hp hoff ⊢
  omega

theorem Requeued.slot_of_lt (h : Requeued box after places) (hp : p ∉ places)
    (hlt : offset box.start p + places.length < 32) : after.slot p = box.slot p := by
  rw [h.slot_eq, h.unmoved p hp (by omega), if_neg hp]

/-- A slot that is not put back keeps its content unless a message put back takes its place. -/
theorem Requeued.slot_of_notMem (h : Requeued box after places) (hp : p ∉ places) :
    after.slot p = box.slot p ∨ ∃ m, after.slot p = .pending m := by
  by_cases hlt : offset box.start p + places.length < 32
  · exact .inl (h.slot_of_lt hp hlt)
  · exact .inr (h.pending_of_le (Nat.le_of_not_lt hlt))

end

end Outbox

end Courier
