import Courier.Proofs.Channel.Content
import Courier.Proofs.Outgoing.Held

/-!
# The outbox keeps its shape

The parts of the ring are used in any order here, with any acknowledgements,
tags and sequences, also such that no channel would choose. Whatever is done,
the pending slots stay together, what is in flight lies outside of them, and no
message is too long for a packet (`shape_kept`).
-/

namespace Courier

namespace Outbox

def Fits (box : Outbox) : Prop := ∀ m, box.Holds m → m.data.length ≤ Message.maxData

section
variable {box box' : Outbox} {acked : UInt32} {m : Message}

theorem length_data_of_mem_pieces {kind : Kind} {critical : Bool} {id : UInt8} {payload : Bytes}
    (hm : m ∈ pieces kind critical id payload) : m.data.length ≤ Message.maxData := by
  unfold pieces at hm
  split at hm
  · rcases List.mem_cons.mp hm with rfl | hpart
    · simp [Announcement.encode, Message.maxData]
    · obtain ⟨i, hi, rfl⟩ := List.mem_mapIdx.mp hpart
      simp [chunks, Message.maxData]
  next hshort =>
    obtain rfl := List.mem_singleton.mp hm
    exact Nat.le_of_not_lt hshort

theorem fits_empty : ({} : Outbox).Fits := fun _ hm => absurd hm not_holds_empty

theorem Fits.mono (h : box.Fits) (hheld : ∀ m, box'.Holds m → box.Holds m) : box'.Fits :=
  fun m hm => h m (hheld m hm)

theorem Fits.enqueue (h : box.Fits) (kind : Kind) (critical : Bool) (payload : Bytes)
    (acked : UInt32) : (box.enqueue kind critical payload acked).2.Fits := by
  intro m hm
  rcases hm.of_enqueue with hnew | hold
  · exact length_data_of_mem_pieces hnew
  · exact h m hold

theorem ring_pushAll (h : box.Ring) (ms : List Message) : (pushAll acked box ms).2.Ring := by
  induction ms generalizing box with
  | nil => exact h
  | cons m rest ih =>
    unfold Outbox.pushAll
    split
    · exact h
    next box' hpush =>
      obtain ⟨hl, i, hv, rfl⟩ := push_ok_iff.mp hpush
      exact ih (h.written hl hv)

theorem Ring.enqueue (h : box.Ring) (kind : Kind) (critical : Bool) (payload : Bytes)
    (acked : UInt32) : (box.enqueue kind critical payload acked).2.Ring := by
  simp only [Outbox.enqueue]
  split
  · exact h
  · split
    · exact h
    · exact ring_pushAll (h.withNextId _) _

theorem Ring.length_pending (h : box.Ring) : box.pending.length = box.length := by
  have hle := h.length_le
  have hsome : ∀ k ∈ List.range box.length, ((box.slot (box.start.forward k)).pending?).isSome := by
    intro k hk
    have hk := List.mem_range.mp hk
    obtain ⟨m, hm⟩ := (h.pending_iff (box.start.forward k)).mpr (by
      rw [Place.offset_forward _ (Nat.lt_of_lt_of_le hk hle)]
      exact hk)
    simp [hm, Slot.pending?]
  rw [pending, List.length_filterMap_eq_countP, List.countP_eq_length.mpr hsome, List.length_range]

theorem prepare_ok (hok : box.prepare acked = .ok box') :
    box' = box ∨ ∃ i ∈ box.freeRegion, box' =
      (box.put i (box.slot box.next)).put box.next .free := by
  unfold prepare at hok
  split at hok
  · cases hok
  · split at hok
    · split at hok
      · cases hok
      next i hi =>
        exact .inr
          ⟨i, List.mem_of_mem_drop (List.mem_of_find?_eq_some hi), (Except.ok.inj hok).symm⟩
    · exact .inl (Except.ok.inj hok).symm

theorem Ring.prepare (h : box.Ring) (hl : box.length < 32) (hok : box.prepare acked = .ok box') :
    box'.Ring := by
  rcases prepare_ok hok with rfl | ⟨i, hi, rfl⟩
  · exact h
  · have hnext := h.mem_freeRegion_iff.mp (h.next_mem hl)
    have hvacant := h.mem_freeRegion_iff.mp hi
    refine ⟨h.length_le, h.next_eq, fun p => Iff.trans ?_ (h.pending_iff p)⟩
    -- neither of the two slots is pending, before or after
    simp only [slot_put]
    split
    next hp => simp [← hp, hnext]
    · split
      next hp => simp [← hp, hnext, hvacant]
      · exact Iff.rfl

theorem Fits.prepare (h : box.Fits) (hok : box.prepare acked = .ok box') : box'.Fits := by
  rcases prepare_ok hok with rfl | ⟨i, -, rfl⟩
  · exact h
  · refine h.mono fun m hm => ?_
    rcases hm.of_put with hfree | hm
    · cases hfree
    · rcases hm.of_put with hmoved | hold
      · exact ⟨box.next, hmoved⟩
      · exact hold

end

end Outbox

namespace Outgoing

inductive Operation where
  | enqueue (kind : Kind) (critical : Bool) (payload : Bytes) (acked : UInt32)
  | prepare (acked : UInt32)
  | drain (limit capacity : Nat) (packet : UInt8)
  | launch (sequence : UInt32) (critical : Bool)
  | confirm (newly : UInt32)
  | settle (next acked : UInt32)

def operate (o : Outgoing) : Operation → Outgoing
  | .enqueue kind critical payload acked =>
    { o with outbox := (o.outbox.enqueue kind critical payload acked).2 }
  | .prepare acked =>
    match o.outbox.prepare acked with
    | .ok outbox => { o with outbox }
    | .error _ => o
  | .drain limit capacity packet =>
    { o with outbox := (o.outbox.drainUpTo limit capacity packet).2 }
  | .launch sequence critical => { o with flights := o.flights.launch sequence critical }
  | .confirm newly => (o.confirm newly).2
  | .settle next acked => (o.settle next acked).2.2

/-- A slot is written only while not all of them are pending. -/
def Permits (o : Outgoing) : Operation → Prop
  | .enqueue .. | .prepare _ => o.outbox.length ≤ 31
  | _ => True

instance (o : Outgoing) (op : Operation) : Decidable (o.Permits op) :=
  match op with
  | .enqueue .. | .prepare _ => inferInstanceAs (Decidable (_ ≤ _))
  | .drain .. | .launch .. | .confirm _ | .settle .. => .isTrue trivial

def PermitsAll : Outgoing → List Operation → Prop
  | _, [] => True
  | o, op :: rest => o.Permits op ∧ (o.operate op).PermitsAll rest

instance decidablePermitsAll :
    (o : Outgoing) → (ops : List Operation) → Decidable (o.PermitsAll ops)
  | _, [] => .isTrue trivial
  | o, op :: rest =>
    have := decidablePermitsAll (o.operate op) rest
    inferInstanceAs (Decidable (_ ∧ _))

/-- The shape of the ring, and a bound on what it holds. -/
structure Shapely (o : Outgoing) : Prop where
  ring : o.outbox.Ring
  fits : o.outbox.Fits

section
variable {o : Outgoing}

theorem shapely_empty : ({} : Outgoing).Shapely := ⟨Outbox.ring_empty, Outbox.fits_empty⟩

theorem Shapely.operate (h : o.Shapely) {op : Operation} (hop : o.Permits op) :
    (o.operate op).Shapely := by
  cases op with
  | enqueue kind critical payload acked =>
    exact ⟨h.ring.enqueue kind critical payload acked, h.fits.enqueue kind critical payload acked⟩
  | prepare acked =>
    simp only [Outgoing.operate]
    cases hok : o.outbox.prepare acked with
    | error e => exact h
    | ok outbox => exact ⟨h.ring.prepare (Nat.lt_succ_of_le hop) hok, h.fits.prepare hok⟩
  | drain limit capacity packet =>
    exact ⟨(h.ring.drainUpTo limit capacity packet).ring,
      h.fits.mono (Outbox.holds_of_drainUpTo o.outbox limit capacity packet).2⟩
  | launch sequence critical => exact ⟨h.ring, h.fits⟩
  | confirm newly =>
    refine ⟨?_, h.fits.mono fun m hm => holds_of_deliverAll hm⟩
    rw [Outgoing.operate, confirm_eq h.ring]
    exact (released_confirmed h.ring newly).ring
  | settle next acked =>
    exact ⟨(settle_spec h.ring next acked).1, h.fits.mono fun m hm => holds_of_settle hm⟩

theorem Shapely.operateAll {ops : List Operation} (h : o.Shapely) (hops : o.PermitsAll ops) :
    (ops.foldl Outgoing.operate o).Shapely := by
  induction ops generalizing o with
  | nil => exact h
  | cons op rest ih =>
    obtain ⟨hop, hrest⟩ := hops
    exact ih (h.operate hop) hrest

end

/-- After any operations from an empty outbox, going forward from `start` the
first `length` slots are the pending ones and the write position follows them.
What is in flight lies in the free region, and no slot holds more than 96 bytes. -/
theorem shape_kept {ops : List Operation} (hops : PermitsAll {} ops) :
    let box := (ops.foldl operate {}).outbox
    box.length ≤ 32 ∧ box.next = box.start.forward box.length ∧
      (∀ p, (∃ m, box.slot p = .pending m) ↔ ∃ k < box.length, p = box.start.forward k) ∧
      (∀ p m packet, box.slot p = .inFlight m packet → p ∈ box.freeRegion) ∧
      box.pending.length = box.length ∧
      ∀ p m, (box.slot p).message? = some m → m.data.length ≤ 96 := by
  obtain ⟨hring, hfits⟩ := shapely_empty.operateAll hops
  refine ⟨hring.length_le, hring.next_eq, fun p => ?_, fun p m packet =>
      hring.mem_freeRegion_of_inFlight,
    hring.length_pending, fun p m hm => hfits m ⟨p, hm⟩⟩
  rw [hring.pending_iff]
  constructor
  · intro hp
    exact ⟨_, hp, (Place.forward_offset _ p).symm⟩
  · rintro ⟨k, hk, rfl⟩
    rwa [Place.offset_forward _ (Nat.lt_of_lt_of_le hk hring.length_le)]

def crowding : List Operation :=
  List.replicate 31 (.enqueue .data true [7] 0) ++
    [.drain 3 Packet.capacity 0, .launch 0 true, .drain 1 Packet.capacity 1, .launch 1 true,
      .enqueue .data false [8] 0, .enqueue .data false [9] 2, .settle 32 0]

theorem shape_kept_crowding :
    PermitsAll {} crowding ∧
      let box := (crowding.foldl operate {}).outbox
      box.length = 32 ∧ box.start = Place.origin.forward 1 ∧ box.next = Place.origin.forward 1 ∧
        box.pending.length = 32 ∧ ∀ p, ∃ m, box.slot p = .pending m := by
  have hops : PermitsAll {} crowding := by decide +kernel
  have hlength : (crowding.foldl operate {}).outbox.length = 32 := by decide +kernel
  have hstart : (crowding.foldl operate {}).outbox.start = Place.origin.forward 1 := by
    decide +kernel
  obtain ⟨-, hnext, hpending, -, hcount, -⟩ := shape_kept hops
  rw [hlength] at hnext hpending hcount
  refine ⟨hops, hlength, hstart, ?_, hcount, fun p => (hpending p).mpr ?_⟩
  · rw [hnext, hstart]
    rfl
  · exact ⟨_, Place.offset_lt _ p, (Place.forward_offset _ p).symm⟩

end Outgoing

end Courier
