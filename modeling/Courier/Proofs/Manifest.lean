import Courier.Proofs.Outbox.Enqueue
import Courier.Proofs.Outbox.Requeue

/-!
# Which payload a slot's message belongs to

Payload ids are counted with eight bits, so messages in the outbox do not say
which payload they belong to. A manifest keeps the number of that payload for
every slot. It is carried along whenever the outbox moves messages, and has no
influence on it.
-/

namespace Courier

/-- The number of the payload that the message in each slot belongs to. -/
abbrev Manifest := Place → Nat

namespace Manifest

/-- `Outbox.written` puts a message of payload `number` at the write position
and what stood there at `i`. -/
def written (f : Manifest) (box : Outbox) (i : Place) (number : Nat) : Manifest := fun p =>
  if p = box.next then number else if p = i then f box.next else f p

def pushAll (acked : UInt32) (number : Nat) : Manifest → Outbox → List Message → Manifest
  | f, _, [] => f
  | f, box, m :: rest =>
    match box.vacancy acked with
    | none => f
    | some i => pushAll acked number (f.written box i number) (box.written i m) rest

/-- `Outbox.requeue` moves messages along with `places`. -/
def requeue (f : Manifest) (box : Outbox) (places : List Place) : Manifest :=
  fun p => f (box.origin places p)

def front (f : Manifest) (box : Outbox) (count : Nat) : List Nat :=
  (List.range count).map fun k => f (box.start.forward k)

@[simp] theorem length_front (f : Manifest) (box : Outbox) (count : Nat) :
    (f.front box count).length = count := by
  simp [front]

/-- What adding messages does: each slot keeps the content of some slot before,
or holds one of the messages. -/
structure Pushed (f after : Manifest) (box box' : Outbox) (number : Nat)
    (ms : List Message) : Prop where
  ring : box'.Ring
  length_eq : box'.length = box.length + ms.length
  nextId_eq : box'.nextId = box.nextId
  slot_eq : ∀ p, (∃ q, box'.slot p = box.slot q ∧ after p = f q) ∨
    ∃ m ∈ ms, box'.slot p = .pending m ∧ after p = number

theorem pushed_pushAll {acked : UInt32} {number : Nat} (ms : List Message) {f : Manifest}
    {box : Outbox} (h : box.Ring) (hok : (Outbox.pushAll acked box ms).1 = .ok ()) :
    Pushed f (f.pushAll acked number box ms) box (Outbox.pushAll acked box ms).2 number ms := by
  induction ms generalizing f box with
  | nil => exact ⟨h, rfl, rfl, fun p => .inl ⟨p, rfl, rfl⟩⟩
  | cons m rest ih =>
    cases hpush : box.push acked m with
    | error e => simp only [Outbox.pushAll, hpush, reduceCtorEq] at hok
    | ok box' =>
      obtain ⟨hl, i, hv, rfl⟩ := Outbox.push_ok_iff.mp hpush
      simp only [Outbox.pushAll, hpush] at hok ⊢
      have hrest := ih (f := f.written box i number) (h.written hl hv) hok
      refine ⟨hrest.ring, ?_, hrest.nextId_eq, fun p => ?_⟩
      · rw [hrest.length_eq, List.length_cons]
        show box.length + 1 + rest.length = _
        omega
      · simp only [pushAll, hv]
        rcases hrest.slot_eq p with ⟨q, hslot, hnumber⟩ | ⟨m', hm', hslot, hnumber⟩
        · rw [hslot, hnumber, Outbox.slot_written, written]
          by_cases hnext : q = box.next
          · exact .inr ⟨m, List.mem_cons_self, by simp [hnext]⟩
          · by_cases hi : q = i
            · exact .inl
                ⟨box.next, by rw [if_neg hnext, if_pos hi], by rw [if_neg hnext, if_pos hi]⟩
            · exact .inl ⟨q, by rw [if_neg hnext, if_neg hi], by rw [if_neg hnext, if_neg hi]⟩
        · exact .inr ⟨m', List.mem_cons_of_mem _ hm', hslot, hnumber⟩

end Manifest

end Courier
