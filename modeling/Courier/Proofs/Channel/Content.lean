import Courier.Exchange
import Courier.Proofs.Channel
import Courier.Proofs.Outbox.Vitals
import Courier.Proofs.Packet.RoundTrip

/-!
# What a channel holds

The messages in the slots of a channel's outbox, pending or in flight. Only
queueing a payload adds to them, and every packet is built from them.
-/

namespace Courier

namespace Outbox

def Holds (box : Outbox) (m : Message) : Prop := ∃ p, (box.slot p).message? = some m

section
variable {box box' : Outbox} {m x : Message} {packet : UInt8} {i : Place}

theorem not_holds_empty : ¬ ({} : Outbox).Holds m := by
  rintro ⟨p, hp⟩
  have hfree : ({} : Outbox).slot p = .free := Vector.getElem_replicate p.isLt
  rw [hfree] at hp
  cases hp

theorem Holds.of_put {slot : Slot} (h : (box.put i slot).Holds m) :
    slot.message? = some m ∨ box.Holds m := by
  obtain ⟨p, hp⟩ := h
  rw [slot_put] at hp
  split at hp
  · exact .inl hp
  · exact .inr ⟨p, hp⟩

theorem Holds.of_written (h : (box.written i x).Holds m) : m = x ∨ box.Holds m := by
  obtain ⟨p, hp⟩ := h
  rw [slot_written] at hp
  split at hp
  · exact .inl (Option.some.inj hp).symm
  · split at hp
    · exact .inr ⟨_, hp⟩
    · exact .inr ⟨p, hp⟩

theorem Holds.of_pushAll {acked : UInt32} {ms : List Message}
    (h : (pushAll acked box ms).2.Holds m) : m ∈ ms ∨ box.Holds m := by
  induction ms generalizing box with
  | nil => exact .inr h
  | cons x rest ih =>
    rw [pushAll] at h
    cases hpush : box.push acked x with
    | error e =>
      rw [hpush] at h
      exact .inr h
    | ok box' =>
      rw [hpush] at h
      obtain ⟨-, i, -, rfl⟩ := push_ok_iff.mp hpush
      rcases ih h with hrest | hwritten
      · exact .inl (List.mem_cons_of_mem _ hrest)
      · rcases hwritten.of_written with rfl | hold
        · exact .inl List.mem_cons_self
        · exact .inr hold

theorem Holds.of_enqueue {kind : Kind} {critical : Bool} {payload : Bytes} {acked : UInt32}
    (h : (box.enqueue kind critical payload acked).2.Holds m) :
    m ∈ pieces kind critical box.nextId payload ∨ box.Holds m := by
  simp only [enqueue] at h
  split at h
  · exact .inr h
  · split at h
    · exact .inr h
    · exact h.of_pushAll

theorem Holds.of_drained (hslot : box.slot box.start = .pending x)
    (h : (box.drained x packet).Holds m) : box.Holds m := by
  obtain ⟨p, hp⟩ := h
  rw [slot_drained] at hp
  split at hp
  · exact ⟨box.start, by rwa [hslot]⟩
  · exact ⟨p, hp⟩

theorem holds_of_drainUpTo (box : Outbox) (limit capacity : Nat) (packet : UInt8) :
    (∀ m ∈ (box.drainUpTo limit capacity packet).1, box.Holds m) ∧
      ∀ m, (box.drainUpTo limit capacity packet).2.Holds m → box.Holds m := by
  induction limit generalizing box capacity with
  | zero => exact ⟨by simp [drainUpTo], fun m h => h⟩
  | succ limit ih =>
    simp only [drainUpTo]
    split
    · exact ⟨by simp, fun m h => h⟩
    next x box' hone =>
      obtain ⟨-, hslot, -, rfl⟩ := drainOne_some_iff.mp hone
      obtain ⟨hmoved, hkept⟩ := ih (box.drained x packet) (capacity - x.wireSize)
      constructor
      · intro m hm
        rcases List.mem_cons.mp hm with rfl | hm
        · exact ⟨box.start, by rw [hslot]; rfl⟩
        · exact (hmoved m hm).of_drained hslot
      · exact fun m hm => (hkept m hm).of_drained hslot

theorem Holds.of_release (h : (box.release i).2.Holds m) : box.Holds m := by
  rw [release_eq] at h
  split at h
  · rcases h.of_put with hfree | hold
    · cases hfree
    · exact hold
  · exact h

theorem Holds.of_releaseAll {places : List Place} (h : (box.releaseAll places).2.Holds m) :
    box.Holds m := by
  induction places generalizing box with
  | nil => exact h
  | cons i rest ih => exact (ih h).of_release

theorem Holds.of_restore (hslot : box.slot i = .inFlight x packet) (h : (box.restore i x).Holds m) :
    box.Holds m := by
  obtain ⟨p, hp⟩ := h
  rw [slot_restore] at hp
  split at hp
  · exact ⟨i, by rwa [hslot]⟩
  · split at hp
    · exact ⟨_, hp⟩
    · exact ⟨p, hp⟩

theorem Holds.of_requeue {places : List Place} (h : (box.requeue places).2.Holds m) :
    box.Holds m := by
  induction places with
  | nil => exact h
  | cons i rest ih =>
    simp only [Outbox.requeue] at h
    split at h
    next x packet hslot => exact ih (h.of_restore hslot)
    · exact ih h

end

end Outbox

namespace Outgoing

variable {o : Outgoing} {m : Message}

theorem holds_of_settle {next acked : UInt32} (h : (o.settle next acked).2.2.outbox.Holds m) :
    o.outbox.Holds m := by
  rcases fate_cases o.flights (Window.index next) acked with ⟨hfate, -⟩ | ⟨hfate, -⟩ | ⟨hfate, -⟩
  · rw [(settle_unsent hfate).1] at h
    exact h
  · rw [(settle_acknowledged hfate).1] at h
    exact h.of_releaseAll
  · rw [(settle_lost hfate).1.2] at h
    exact h.of_releaseAll.of_requeue

theorem holds_of_deliverAll {indices : List UInt32} (h : (o.deliverAll indices).2.outbox.Holds m) :
    o.outbox.Holds m := by
  induction indices generalizing o with
  | nil => exact h
  | cons index rest ih =>
    have hfirst : (o.deliver index).2.outbox.Holds m := ih h
    exact hfirst.of_releaseAll

end Outgoing

namespace Channel

def Holds (c : Channel) (m : Message) : Prop := c.outgoing.outbox.Holds m

section
variable {c c' : Channel} {m : Message} {now : Time}

theorem not_holds_fresh {peer : Address} : ¬ (Channel.fresh peer now).Holds m :=
  Outbox.not_holds_empty

theorem Holds.of_settle (h : c.settle.2.Holds m) : c.Holds m := by
  obtain ⟨-, -, -, houtgoing, -⟩ := c.settle_spec
  rw [Holds, houtgoing] at h
  exact Outgoing.holds_of_settle h

theorem Holds.of_receive {p : Packet} {size : Nat} (h : (c.receive p size now).2.Holds m) :
    c.Holds m := by
  cases haccepted : (c.arrivals.record p.header.sequence).1.accepted with
  | false =>
    obtain ⟨-, -, -, -, houtgoing, -⟩ := receive_refused c p size now haccepted
    rwa [Holds, houtgoing] at h
  | true =>
    obtain ⟨-, -, -, -, houtgoing, -⟩ := receive_accepted c p size now haccepted
    rw [Holds, houtgoing] at h
    exact Outgoing.holds_of_deliverAll h

theorem Holds.of_enqueue {kind : Kind} {critical : Bool} {payload : Bytes}
    (h : (c.enqueue kind critical payload).2.Holds m) :
    m ∈ Outbox.pieces kind critical c.outgoing.outbox.nextId payload ∨ c.Holds m :=
  Outbox.Holds.of_enqueue h

theorem Holds.of_setPhase {phase : Phase} (h : (c.setPhase phase).Holds m) : c.Holds m := by
  rw [setPhase] at h
  split at h
  · exact h
  · exact h

theorem holds_of_mem_build (hm : m ∈ (c.build now).1.messages) : c.Holds m :=
  (Outbox.holds_of_drainUpTo _ _ _ _).1 m hm

theorem Holds.of_build (h : (c.build now).2.Holds m) : c.Holds m :=
  (Outbox.holds_of_drainUpTo _ _ _ _).2 m h

theorem Holds.of_transmit {σ : Type} [Transport σ] {net : σ}
    (h : (c.transmit net now).2.1.Holds m) : c.Holds m := by
  have hbuilt : (c.build now).2.Holds m := by
    simp only [transmit] at h
    split at h
    · exact h
    · split at h
      · exact h
      · exact h
  exact hbuilt.of_build

theorem messages_of_decode {bytes : Bytes} {p : Packet}
    (hbytes : (c.build now).1.encode = .ok bytes) (hp : Packet.decode bytes = .ok p) :
    p.messages = (c.build now).1.messages := by
  have hread := Packet.WithinLimits.decode_encode rfl hbytes
  obtain rfl := Except.ok.inj (hread.symm.trans hp)
  rfl

theorem mem_sent_transmit {net : Script} {peer : Address} {bytes : Bytes} :
    (peer, bytes) ∈ (c.transmit net now).2.2.sent ↔
      c.peer = peer ∧ (c.build now).1.encode = .ok bytes ∨ (peer, bytes) ∈ net.sent := by
  simp only [transmit]
  split
  next e hencode => simp [hencode]
  next out hencode =>
    rw [hencode]
    show (peer, bytes) ∈ (c.peer, out) :: net.sent ↔ _
    simp [eq_comm]

end

end Channel

end Courier
