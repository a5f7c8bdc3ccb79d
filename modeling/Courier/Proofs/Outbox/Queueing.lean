import Courier.Proofs.Manifest.Waiting
import Courier.Proofs.Outgoing.Shape
import Courier.Proofs.Payload

/-!
# Queueing from any outbox

`Reachable` are the outboxes that the operations of the queue lead to, in any
order and with any acknowledgements. In each of them two counts decide whether
a payload is queued: the pending slots left and the slots of the free region
that may be given up (`Slot.Spare`). If it is, its messages follow the pending
ones, and what is still needed in flight only changes places
(`enqueue_whole_or_not`).
-/

namespace Courier

namespace Slot

section
variable {slot : Slot} {acked : UInt32}

/-- The slot may be given up for a new message. -/
inductive Spare (acked : UInt32) : Slot → Prop
  | free : Spare acked .free
  | plain {m : Message} {packet : UInt8} (h : m.critical = false) : Spare acked (.inFlight m packet)
  | acknowledged {m : Message} {packet : UInt8} (h : Window.has acked packet.toUInt32 = true) :
    Spare acked (.inFlight m packet)

theorem spare_iff : slot.Spare acked ↔ slot.isReusable acked = true := by
  constructor
  · rintro (_ | h | h)
    · rfl
    · simp [isReusable, isHeld, h]
    · simp [isReusable, isHeld, h]
  · intro h
    cases slot with
    | free => exact .free
    | pending m => cases h
    | inFlight m packet =>
      cases hc : m.critical with
      | false => exact .plain hc
      | true => exact .acknowledged (by simpa [isReusable, isHeld, hc] using h)

instance : Decidable (slot.Spare acked) := decidable_of_iff _ spare_iff.symm

theorem isHeld_iff : slot.isHeld acked = true ↔
    ∃ m packet, slot = .inFlight m packet ∧ m.critical = true ∧
    Window.has acked packet.toUInt32 = false := by
  cases slot <;> simp [isHeld]

end

end Slot

theorem Outbox.pieces_short {kind : Kind} {critical : Bool} {id : UInt8} {data : Bytes}
    (h : data.length ≤ Message.maxData) :
    pieces kind critical id data = [{ kind, critical, fragment := id, order := 0, data }] := by
  rw [pieces, if_neg (Nat.not_lt.mpr h)]

namespace Payload

/-- The messages make up a payload under one id, numbered from 0: its data if that
fits one message, else the announced size and then the parts of the data. -/
structure Composed (p : Payload) (id : UInt8) (ms : List Message) : Prop where
  fragment_eq : ∀ m ∈ ms, m.fragment = id
  critical_eq : ∀ m ∈ ms, m.critical = p.critical
  orders_eq : ms.map (·.order.toNat) = List.range ms.length
  whole : p.data.length ≤ 96 → ms.map (fun m => (m.kind, m.data)) = [(p.kind, p.data)]
  parts : 96 < p.data.length → ∃ head rest size, ms = head :: rest ∧
    head.kind = .announcement ∧ Announcement.decode head.data = .ok size ∧
    size.toNat = p.data.length ∧
    (∀ m ∈ rest, m.kind = p.kind ∧ m.data.length ≤ 96) ∧ rest.flatMap (·.data) = p.data

section
variable {p : Payload} {number : Nat}

theorem pieces_of_le (h : p.data.length ≤ Message.maxData) : p.pieces number = [p.whole number] :=
  Outbox.pieces_short h

theorem pieces_of_lt (h : Message.maxData < p.data.length) :
    p.pieces number = p.announcement number :: (List.range p.count).map (p.part number) := by
  rw [pieces, Outbox.pieces, if_pos h]
  refine congrArg (p.announcement number :: ·)
    (List.ext_getElem (by simp [count]) fun i hi hi' => ?_)
  simp [Outbox.chunks, part, chunk]

theorem composed_pieces (p : Payload) (id : UInt8)
    (hfew : Outbox.messagesNeeded p.data.length ≤ 31) :
    p.Composed id (Outbox.pieces p.kind p.critical id p.data) := by
  obtain ⟨number, rfl⟩ : ∃ number, id = UInt8.ofNat number := ⟨id.toNat, UInt8.ofNat_toNat.symm⟩
  show p.Composed (UInt8.ofNat number) (p.pieces number)
  refine ⟨fun m => fragment_of_mem, fun m => critical_of_mem, ?_, fun hshort => ?_, fun hlong => ?_⟩
  · rcases Nat.lt_or_ge Message.maxData p.data.length with hlong | hshort
    · rw [Outbox.messagesNeeded, if_pos hlong] at hfew
      have horder : ∀ i ∈ List.range p.count, (p.part number i).order.toNat = i + 1 := by
        intro i hi
        have hi : i < p.count := List.mem_range.mp hi
        refine UInt8.toNat_ofNat_of_lt' (Nat.lt_of_le_of_lt ?_ (show 31 < 256 by decide))
        simp only [count] at hi
        omega
      have horders : (List.range p.count).map (fun i => (p.part number i).order.toNat) =
          (List.range p.count).map (· + 1) := List.map_congr_left horder
      simpa [pieces_of_lt hlong, Function.comp_def, List.range_succ_eq_map,
        announcement] using horders
    · rw [pieces_of_le hshort]
      rfl
  · rw [pieces_of_le hshort]
    rfl
  · refine
      ⟨p.announcement number, (List.range p.count).map (p.part number), UInt32.ofNat p.data.length,
        pieces_of_lt hlong, rfl, Announcement.decode_encode _, ?_, ?_, ?_⟩
    · simp only [Outbox.messagesNeeded, Message.maxData, hlong, if_true] at hfew
      refine UInt32.toNat_ofNat_of_lt' (Nat.lt_of_le_of_lt (m := 2880) ?_ (by decide))
      simp only [Outbox.chunkCount, Message.maxData] at hfew
      omega
    · intro m hm
      obtain ⟨i, -, rfl⟩ := List.mem_map.mp hm
      exact ⟨rfl, by simp [part, chunk, Message.maxData]⟩
    · rw [List.flatMap_map]
      exact p.flatMap_count

end

end Payload

namespace Outbox

section
variable {box after third : Outbox} {acked : UInt32} {i : Place} {m : Message} {ms : List Message}

-- ---------------------------------------------------------------------------
-- The outboxes there are
-- ---------------------------------------------------------------------------

inductive Reachable : Outbox → Prop
  | empty : Reachable {}
  | enqueue {box : Outbox} (h : Reachable box) (kind : Kind) (critical : Bool) (payload : Bytes)
      (acked : UInt32) :
    Reachable (box.enqueue kind critical payload acked).2
  | prepare {box after : Outbox} {acked : UInt32} (h : Reachable box)
      (hok : box.prepare acked = .ok after) :
    Reachable after
  | drain {box : Outbox} (h : Reachable box) (limit capacity : Nat) (packet : UInt8) :
    Reachable (box.drainUpTo limit capacity packet).2
  | release {box : Outbox} (h : Reachable box) (i : Place) : Reachable (box.release i).2
  | requeue {box : Outbox} (h : Reachable box) (places : List Place) :
      Reachable (box.requeue places).2

theorem Ring.release (h : box.Ring) (i : Place) : (box.release i).2.Ring := by
  unfold Outbox.release
  split
  next hs => exact h.freed hs
  · exact h

/-- In whatever order slots are put back. -/
theorem Ring.requeue_any (h : box.Ring) (places : List Place) : (box.requeue places).2.Ring := by
  induction places with
  | nil => exact h
  | cons i rest ih =>
    simp only [Outbox.requeue]
    split
    next hs => exact ih.restore hs
    · exact ih

theorem Reachable.ring (h : box.Reachable) : box.Ring := by
  induction h with
  | empty => exact ring_empty
  | enqueue _ kind critical payload acked ih => exact ih.enqueue kind critical payload acked
  | prepare _ hok ih =>
    refine ih.prepare ?_ hok
    by_contra hfull
    rw [Outbox.prepare, if_pos (by simp only [capacity]; omega)] at hok
    cases hok
  | drain _ limit capacity packet ih => exact (ih.drainUpTo limit capacity packet).ring
  | release _ i ih => exact ih.release i
  | requeue _ places ih => exact ih.requeue_any places

-- ---------------------------------------------------------------------------
-- What is still needed
-- ---------------------------------------------------------------------------

/-- Every slot that is held is there afterwards, at a place of its own. -/
def Keeps (acked : UInt32) (box after : Outbox) : Prop :=
  ∃ move : Place → Place, Function.Injective move ∧
    ∀ p, (box.slot p).isHeld acked = true → after.slot (move p) = box.slot p

theorem Keeps.refl (acked : UInt32) (box : Outbox) : Keeps acked box box :=
  ⟨id, Function.injective_id, fun _ _ => rfl⟩

theorem Keeps.trans (first : Keeps acked box after) (second : Keeps acked after third) :
    Keeps acked box third := by
  obtain ⟨move, hinj, hmove⟩ := first
  obtain ⟨further, hinj', hfurther⟩ := second
  refine ⟨further ∘ move, hinj'.comp hinj, fun p hp => ?_⟩
  have hsame := hmove p hp
  exact (hfurther (move p) (hsame ▸ hp)).trans hsame

/-- A new message takes the place of one that is not needed; the one it may displace moves there. -/
theorem Ring.keeps_written (h : box.Ring) (hl : box.length < 32) (hv : box.vacancy acked = some i) :
    Keeps acked box (box.written i m) := by
  obtain ⟨-, hvacant⟩ := h.vacancy_spec hl hv
  refine ⟨Place.exchange i box.next, Place.exchange_injective i box.next, fun p hp => ?_⟩
  have hpi : p ≠ i := by
    rintro rfl
    rw [Slot.isReusable_of_isHeld hp] at hvacant
    cases hvacant
  rw [slot_written, Place.exchange]
  by_cases hpn : p = box.next
  · have hin : i ≠ box.next := fun e => hpi (hpn.trans e.symm)
    rw [if_pos hpn, if_neg hin, if_pos rfl, hpn]
  · rw [if_neg hpn, if_neg hpi, if_neg hpn, if_neg hpi]

theorem Ring.reusableCount_pushAll (h : box.Ring) (hok : (Outbox.pushAll acked box ms).1 = .ok ()) :
    (Outbox.pushAll acked box ms).2.reusableCount acked + ms.length = box.reusableCount acked := by
  induction ms generalizing box with
  | nil => rfl
  | cons m rest ih =>
    cases hpush : box.push acked m with
    | error e => simp only [Outbox.pushAll, hpush, reduceCtorEq] at hok
    | ok box' =>
      obtain ⟨hl, i, hv, rfl⟩ := push_ok_iff.mp hpush
      simp only [Outbox.pushAll, hpush] at hok ⊢
      have hrest := ih (h.written hl hv) hok
      have hone := h.reusableCount_written (m := m) (by omega) hv
      rw [List.length_cons]
      omega

theorem Ring.keeps_pushAll (h : box.Ring) (ms : List Message) :
    Keeps acked box (Outbox.pushAll acked box ms).2 := by
  induction ms generalizing box with
  | nil => exact .refl acked box
  | cons m rest ih =>
    unfold Outbox.pushAll
    split
    · exact .refl acked box
    next hpush =>
      obtain ⟨hl, i, hv, rfl⟩ := push_ok_iff.mp hpush
      exact (h.keeps_written (by omega) hv).trans (ih (h.written hl hv))

-- ---------------------------------------------------------------------------
-- Queueing a payload
-- ---------------------------------------------------------------------------

theorem messagesNeeded_eq (size : Nat) :
    messagesNeeded size = if size ≤ 96 then 1 else 1 + (size + 95) / 96 := by
  unfold messagesNeeded
  simp only [← Nat.not_le, Message.maxData, ite_not]
  rfl

theorem reusableCount_eq (box : Outbox) (acked : UInt32) :
    box.reusableCount acked = box.freeRegion.countP fun i => (box.slot i).Spare acked :=
  List.countP_congr fun i _ => by rw [decide_eq_true_iff, Slot.spare_iff]

/-- What the outbox becomes with the messages of a payload under its next id. -/
structure Filled (box after : Outbox) (p : Payload) (acked : UInt32) : Prop where
  ring : after.Ring
  nextId_eq : after.nextId = box.nextId + 1
  pending_eq : after.pending = box.pending ++ pieces p.kind p.critical box.nextId p.data
  reusable_eq : after.reusableCount acked + messagesNeeded p.data.length = box.reusableCount acked
  keeps : Keeps acked box after

theorem Filled.length_eq {p : Payload} (h : box.Filled after p acked) (hring : box.Ring) :
    after.length = box.length + messagesNeeded p.data.length := by
  rw [← h.ring.length_pending, h.pending_eq, List.length_append, hring.length_pending,
    length_pieces]

/-- There are enough pending slots for a payload, and enough slots to give up. -/
def Fitting (box : Outbox) (p : Payload) (acked : UInt32) : Prop :=
  messagesNeeded p.data.length ≤ box.room ∧ messagesNeeded p.data.length ≤ box.reusableCount acked

instance (box : Outbox) (p : Payload) (acked : UInt32) : Decidable (box.Fitting p acked) :=
  inferInstanceAs (Decidable (_ ∧ _))

theorem Fitting.length_add_le {p : Payload} (h : box.Fitting p acked) :
    box.length + messagesNeeded p.data.length ≤ 31 :=
  Outbox.length_add_le (messagesNeeded_pos _) h.1 h.2

theorem Ring.enqueue_fitting {p : Payload} (h : box.Ring) (hfit : box.Fitting p acked) :
    ∃ after, box.enqueue p.kind p.critical p.data acked = (.ok box.nextId, after) ∧
    box.Filled after p acked := by
  obtain ⟨hresult, hok⟩ := h.enqueue_ok p.kind p.critical hfit.1 hfit.2
  have hring := h.withNextId (box.nextId + 1)
  obtain ⟨hafter, hid, hpending⟩ := hring.pushAll hok
  have hcount := hring.reusableCount_pushAll hok
  rw [length_pieces] at hcount
  exact ⟨_, hresult, hafter, hid, hpending, hcount, hring.keeps_pushAll _⟩

theorem enqueue_refused {p : Payload} (hnot : ¬ box.Fitting p acked) :
    box.enqueue p.kind p.critical p.data acked =
      (.error (if messagesNeeded p.data.length ≤ box.room then .exhausted
        else .full (messagesNeeded p.data.length) box.room), box) := by
  by_cases hroom : messagesNeeded p.data.length ≤ box.room
  · have hcount : box.reusableCount acked < messagesNeeded p.data.length :=
      Nat.not_le.mp fun hcount => hnot ⟨hroom, hcount⟩
    rw [Outbox.enqueue, if_neg (Nat.not_lt.mpr hroom), if_pos hcount, if_pos hroom]
  · rw [Outbox.enqueue, if_pos (Nat.not_le.mp hroom), if_neg hroom]

/-- As long as at most 31 slots are pending, a payload is queued iff there are enough
slots left and enough slots to give up. If not, nothing changes. If so, its messages
are pending behind the others, and no critical message that is in flight and not
acknowledged is lost. -/
theorem enqueue_whole_or_not (h : box.Reachable) (hspare : box.length ≤ 31) (p : Payload)
    (acked : UInt32) :
    let n := if p.data.length ≤ 96 then 1 else 1 + (p.data.length + 95) / 96
    let room := 31 - box.length
    let spare := box.freeRegion.countP fun i => (box.slot i).Spare acked
    let result := (box.enqueue p.kind p.critical p.data acked).1
    let after := (box.enqueue p.kind p.critical p.data acked).2
    ((∃ id, result = .ok id) ↔ n ≤ room ∧ n ≤ spare) ∧
      (∀ e, result = .error e → after = box ∧ e = if n ≤ room then .exhausted else .full n room) ∧
      ∀ id, result = .ok id → id = box.nextId ∧ after.nextId = id + 1 ∧
        (∃ ms, after.pending = box.pending ++ ms ∧ ms.length = n ∧ p.Composed id ms) ∧
        ∃ move : Place → Place, Function.Injective move ∧
          ∀ i m packet, box.slot i = .inFlight m packet →
          m.critical = true → Window.has acked packet.toUInt32 = false →
          after.slot (move i) = .inFlight m packet := by
  intro n room spare result after
  have hn : messagesNeeded p.data.length = n := messagesNeeded_eq _
  have hroom : box.room = room := room_of_le hspare
  have hcount : box.reusableCount acked = spare := reusableCount_eq box acked
  have hfitting : box.Fitting p acked ↔ n ≤ room ∧ n ≤ spare := by rw [Fitting, hn, hroom, hcount]
  by_cases hfit : box.Fitting p acked
  · obtain ⟨filled, hok, hfilled⟩ := h.ring.enqueue_fitting hfit
    have hresult : result = .ok box.nextId := congrArg Prod.fst hok
    have hafter : after = filled := congrArg Prod.snd hok
    refine ⟨⟨fun _ => hfitting.mp hfit, fun _ => ⟨_, hresult⟩⟩, ?_, ?_⟩
    · intro e he
      cases hresult.symm.trans he
    · intro id hid
      obtain rfl : box.nextId = id := by simpa [hresult] using hid
      obtain ⟨move, hinj, hmove⟩ := hfilled.keeps
      rw [hafter]
      refine ⟨rfl, hfilled.nextId_eq, ⟨_, hfilled.pending_eq, ?_, ?_⟩, move, hinj, ?_⟩
      · rw [length_pieces, hn]
      · have hroom := (hfitting.mp hfit).1
        exact p.composed_pieces box.nextId (by omega)
      · intro i m packet hs hc hacked
        rw [hmove i (Slot.isHeld_iff.mpr ⟨m, packet, hs, hc, hacked⟩), hs]
  · have hrefused := enqueue_refused hfit
    rw [hn, hroom] at hrefused
    have hresult : result = .error _ := congrArg Prod.fst hrefused
    refine ⟨⟨?_, fun hboth => absurd (hfitting.mpr hboth) hfit⟩, ?_, ?_⟩
    · rintro ⟨id, hid⟩
      cases hresult.symm.trans hid
    · intro e he
      cases hresult.symm.trans he
      exact ⟨congrArg Prod.snd hrefused, rfl⟩
    · intro id hid
      cases hresult.symm.trans hid

/-- The write position is back at a critical message in flight; a payload of four
messages pushes it in front of them. -/
theorem enqueue_whole_or_not_displacing :
    let held : Message :=
      { kind := .data, critical := true, fragment := 0, order := 0, data := [7] }
    let short : Payload := { kind := .data, critical := false, data := [1] }
    let long : Payload := { kind := .data, critical := false, data := List.replicate 200 9 }
    let first := ((({} : Outbox).enqueue .data true [7] 0).2.drainUpTo 1 400 0).2
    let round :=
      (List.replicate 31 short).foldl (fun box p => (box.enqueue p.kind p.critical p.data 0).2)
      first
    let box := (round.drainUpTo 31 400 1).2
    let after := (box.enqueue .data false long.data 0).2
    box.slot box.next = .inFlight held 0 ∧ box.pending = [] ∧ box.length ≤ 31 ∧
      (∃ ms, after.pending = ms ∧ ms.length = 4 ∧ long.Composed 32 ms) ∧
      ∃ i, i ≠ box.next ∧ after.slot i = .inFlight held 0 := by
  intro held short long first round box after
  have hfirst : first.Reachable := (Reachable.empty.enqueue .data true [7] 0).drain 1 400 0
  have hround : round.Reachable := by
    have hqueue : ∀ ps : List Payload, ∀ box : Outbox, box.Reachable →
        (ps.foldl (fun box p => (box.enqueue p.kind p.critical p.data 0).2) box).Reachable := by
      intro ps
      induction ps with
      | nil => exact fun _ h => h
      | cons p rest ih => exact fun box h => ih _ (h.enqueue p.kind p.critical p.data 0)
    exact hqueue _ first hfirst
  have hbox : box.slot box.next = .inFlight held 0 ∧ box.pending = [] ∧ box.length ≤ 31 ∧
      box.nextId = 32 := by decide +kernel
  obtain ⟨hheld, hempty, hspare, hid⟩ := hbox
  obtain ⟨hiff, -, hok⟩ := enqueue_whole_or_not (hround.drain 31 400 1) hspare long 0
  obtain ⟨id, hresult⟩ := hiff.mpr (by decide +kernel)
  obtain ⟨hid', -, ⟨ms, hpending, hlength, hcomposed⟩, move, -, hmove⟩ := hok id hresult
  obtain rfl : id = 32 := hid'.trans hid
  have hthere : after.slot (move box.next) = .inFlight held 0 := hmove _ _ _ hheld rfl (by decide)
  refine ⟨hheld, hempty, hspare, ⟨ms, ?_, hlength.trans (by decide +kernel), hcomposed⟩,
    move box.next, ?_, hthere⟩
  · rw [hempty] at hpending
    exact hpending
  · intro hsame
    have hother : after.slot box.next ≠ .inFlight held 0 := by decide +kernel
    exact hother (hsame ▸ hthere)

end

end Outbox

end Courier
