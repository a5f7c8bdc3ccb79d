import Courier.Proofs.Manifest
import Courier.Proofs.Outgoing

/-!
# The outbox as a queue

`waiting` lists the pending messages with the numbers of their payloads. On this
list the operations of the ring are those of a queue: new messages are added at
the end, a packet takes messages from the front, and what is put back comes
first, in its old order.
-/

namespace Courier

namespace Manifest

open Place (offset)
open Outbox (Drained Released)

def waiting (f : Manifest) (box : Outbox) : List (Message × Nat) :=
  box.pending.zip (f.front box box.length)

/-- The messages in flight at `places` with the numbers of their payloads. -/
def aboard (f : Manifest) (box : Outbox) (places : List Place) : List (Message × Nat) :=
  places.filterMap fun i => (box.slot i).inFlight?.map fun m => (m, f i)

section
variable {f : Manifest} {box after : Outbox} {acked : UInt32} {packet : UInt8} {m : Message}
  {number : Nat} {i : Place} {places : List Place}

theorem front_eq_map {f : Manifest} {box : Outbox} {xs : List (Message × Nat)}
    (h : ∀ k (hk : k < xs.length), f (box.start.forward k) = xs[k].2) :
    f.front box xs.length = xs.map (·.2) := by
  refine List.ext_getElem (by simp) fun k hk hk' => ?_
  rw [List.length_map] at hk'
  simp only [front, List.getElem_map, List.getElem_range, h k hk']

theorem filterMap_range_getElem? {α : Type} (xs : List α) :
    (List.range xs.length).filterMap (fun k => xs[k]?) = xs := by
  induction xs with
  | nil => rfl
  | cons x rest ih =>
    rw [List.length_cons, List.range_succ_eq_map, List.filterMap_cons, List.filterMap_map]
    exact congrArg (x :: ·) ih

theorem waiting_eq {xs : List (Message × Nat)} (hlength : xs.length = box.length)
    (hslot : ∀ k (hk : k < xs.length), box.slot (box.start.forward k) = .pending xs[k].1 ∧
      f (box.start.forward k) = xs[k].2) : f.waiting box = xs := by
  have hpending : box.pending = xs.map (·.1) := by
    rw [Outbox.pending, ← hlength, ← filterMap_range_getElem? (xs.map (·.1)), List.length_map]
    refine List.filterMap_congr fun k hk => ?_
    have hk := List.mem_range.mp hk
    rw [(hslot k hk).1, List.getElem?_map, List.getElem?_eq_getElem hk]
    rfl
  rw [waiting, hpending, ← hlength, front_eq_map fun k hk => (hslot k hk).2]
  exact (List.zip_of_prod rfl rfl).symm

theorem waiting_spec (h : box.Ring) (f : Manifest) :
    (f.waiting box).length = box.length ∧
      ∀ k (hk : k < (f.waiting box).length), box.slot (box.start.forward k) =
        .pending (f.waiting box)[k].1 ∧
        f (box.start.forward k) = (f.waiting box)[k].2 := by
  have hpending (k : Fin box.length) : ∃ m, box.slot (box.start.forward k) = .pending m := by
    have hk := k.isLt
    have hle := h.length_le
    rw [h.pending_iff, Place.offset_forward _ (by omega)]
    exact hk
  choose message hmessage using hpending
  have hwaiting : f.waiting box = List.ofFn fun k => (message k, f (box.start.forward k)) := by
    refine waiting_eq (by simp) fun k hk => ?_
    rw [List.length_ofFn] at hk
    simpa only [List.getElem_ofFn, and_true] using hmessage ⟨k, hk⟩
  rw [hwaiting]
  refine ⟨by simp, fun k hk => ?_⟩
  rw [List.length_ofFn] at hk
  simpa only [List.getElem_ofFn, and_true] using hmessage ⟨k, hk⟩

-- ---------------------------------------------------------------------------
-- Adding messages
-- ---------------------------------------------------------------------------

theorem waiting_written (h : box.Ring) (hl : box.length < 31) (hv : box.vacancy acked = some i) :
    (f.written box i number).waiting (box.written i m) = f.waiting box ++ [(m, number)] := by
  obtain ⟨hlength, hslot⟩ := waiting_spec h f
  obtain ⟨hi, -⟩ := h.vacancy_spec (by omega) hv
  have hfree := h.mem_freeRegion_iff.mp hi
  have hnext := h.mem_freeRegion_iff.mp (h.next_mem (by omega))
  refine waiting_eq (by rw [List.length_append, hlength]; rfl) fun k hk => ?_
  show (box.written i m).slot (box.start.forward k) = _ ∧
    f.written box i number (box.start.forward k) = _
  rw [Outbox.slot_written, written]
  by_cases hlt : k < (f.waiting box).length
  · obtain ⟨hs, hf⟩ := hslot k hlt
    have hne : box.start.forward k ≠ box.next := fun e => hnext _ (e ▸ hs)
    have hne' : box.start.forward k ≠ i := fun e => hfree _ (e ▸ hs)
    rw [if_neg hne, if_neg hne', if_neg hne, if_neg hne', List.getElem_append_left hlt]
    exact ⟨hs, hf⟩
  · rw [List.length_append, List.length_singleton] at hk
    obtain rfl : k = (f.waiting box).length := by omega
    have hend : box.start.forward (f.waiting box).length = box.next := by rw [hlength, h.next_eq]
    rw [hend, if_pos rfl, if_pos rfl, List.getElem_concat_length rfl]
    exact ⟨rfl, rfl⟩

theorem waiting_pushAll (ms : List Message) (h : box.Ring)
    (hok : (Outbox.pushAll acked box ms).1 = .ok ()) :
    (f.pushAll acked number box ms).waiting (Outbox.pushAll acked box ms).2 =
      f.waiting box ++ ms.map fun m => (m, number) := by
  induction ms generalizing f box with
  | nil => exact (List.append_nil _).symm
  | cons m rest ih =>
    cases hpush : box.push acked m with
    | error e => simp only [Outbox.pushAll, hpush, reduceCtorEq] at hok
    | ok box' =>
      obtain ⟨hl, i, hv, rfl⟩ := Outbox.push_ok_iff.mp hpush
      simp only [Outbox.pushAll, hpush, pushAll, hv] at hok ⊢
      rw [ih (h.written hl hv) hok, waiting_written h hl hv, List.map_cons, List.append_assoc]
      rfl

-- ---------------------------------------------------------------------------
-- Freeing slots and putting messages back
-- ---------------------------------------------------------------------------

theorem waiting_released {ms : List Message} (h : box.Ring)
    (hreleased : Released box after places ms) : f.waiting after = f.waiting box := by
  obtain ⟨hlength, hslot⟩ := waiting_spec h f
  refine waiting_eq (hlength.trans hreleased.length_eq.symm) fun k hk => ?_
  obtain ⟨hs, hf⟩ := hslot k hk
  rw [hreleased.start_eq, hreleased.slot_eq, hs]
  refine ⟨?_, hf⟩
  split
  · rfl
  · rfl

theorem waiting_restore (h : box.Ring) (hs : box.slot i = .inFlight m packet) :
    waiting (fun p => f (Place.exchange i box.start.previous p)) (box.restore i m) =
      (m, f i) :: f.waiting box := by
  obtain ⟨hlength, hslot⟩ := waiting_spec h f
  have hle := (h.restore hs).length_le
  refine waiting_eq (by rw [List.length_cons, hlength]; rfl) fun k hk => ?_
  show (box.restore i m).slot (box.start.previous.forward k) = _ ∧
    f (Place.exchange i box.start.previous (box.start.previous.forward k)) = _
  rw [Outbox.slot_restore, Place.exchange]
  cases k with
  | zero =>
    rw [Place.forward_zero, if_pos rfl, if_pos rfl]
    exact ⟨rfl, rfl⟩
  | succ k =>
    rw [List.length_cons] at hk
    obtain ⟨hpending, hf⟩ := hslot k (by omega)
    have hplace : box.start.previous.forward (k + 1) = box.start.forward k := by
      rw [Nat.add_comm, ← Place.forward_forward, Place.forward_previous]
    have hlen : (box.restore i m).length = box.length + 1 := rfl
    have hne : box.start.forward k ≠ box.start.previous := by
      rw [Place.previous]
      intro e
      have := Place.forward_inj box.start (by omega) (by omega) e
      omega
    have hne' : box.start.forward k ≠ i := by
      rintro rfl
      cases hpending.symm.trans hs
    rw [hplace, if_neg hne, if_neg hne', if_neg hne, if_neg hne']
    exact ⟨hpending, hf⟩

theorem waiting_requeue (h : box.Ring) (horder : box.InOrder places)
    (hcarried : ∀ i ∈ places, ∃ m packet, box.slot i = .inFlight m packet) :
    (f.requeue box places).waiting (box.requeue places).2 =
      f.aboard box places ++ f.waiting box := by
  induction places with
  | nil => rfl
  | cons i rest ih =>
    have hroom := horder.room
    obtain ⟨hfirst, horder⟩ := List.pairwise_cons.mp horder
    have hothers : ∀ j ∈ rest, ∃ m packet, box.slot j = .inFlight m packet :=
      fun j hj => hcarried j (List.mem_cons_of_mem _ hj)
    obtain ⟨-, hrest⟩ := h.requeue horder hothers
    obtain ⟨m, packet, hi⟩ := hcarried i List.mem_cons_self
    have hnot : i ∉ rest := fun hmem => Nat.lt_irrefl _ (hfirst i hmem)
    obtain ⟨hself, hslot⟩ := hrest.stays hnot hroom
    rw [hi] at hslot
    obtain ⟨hrequeue, horigin⟩ := Outbox.requeue_cons hslot
    have hmanifest : f.requeue box (i :: rest) =
        fun p => f.requeue box rest (Place.exchange i (box.requeue rest).2.start.previous p) :=
      funext fun p => congrArg f (horigin p)
    have hnumber : f.requeue box rest i = f i := congrArg f hself
    rw [hrequeue, hmanifest, waiting_restore hrest.ring hslot, ih horder hothers, hnumber, aboard,
      aboard, List.filterMap_cons, hi]
    rfl

-- ---------------------------------------------------------------------------
-- Loading a packet
-- ---------------------------------------------------------------------------

theorem waiting_drained {ms : List Message} (h : box.Ring)
    (hdrained : Drained box after packet ms) :
    f.waiting box = ms.zip (f.front box ms.length) ++ f.waiting after := by
  obtain ⟨hlength, hslot⟩ := waiting_spec hdrained.ring f
  have hsplit := hdrained.length_eq
  have hle := h.length_le
  have htaken : (ms.zip (f.front box ms.length)).length = ms.length := by simp
  refine waiting_eq (by rw [List.length_append, htaken, hlength]; omega) fun k hk => ?_
  rw [List.length_append, htaken, hlength] at hk
  by_cases hlt : k < ms.length
  · rw [List.getElem_append_left (by omega), List.getElem_zip]
    refine ⟨hdrained.message_eq k hlt, ?_⟩
    simp only [front, List.getElem_map, List.getElem_range]
  · obtain ⟨hs, hf⟩ := hslot (k - ms.length) (by omega)
    have hplace : after.start.forward (k - ms.length) = box.start.forward k := by
      rw [hdrained.start_eq, Place.forward_forward]
      congr 1
      omega
    rw [hplace] at hs hf
    rw [hdrained.slot_eq, Place.offset_forward _ (by omega), if_neg hlt] at hs
    simp only [List.getElem_append_right
      (show (ms.zip (f.front box ms.length)).length ≤ k by omega), htaken]
    exact ⟨hs, hf⟩

theorem length_le_drainUpTo {xs : List (Message × Nat)} (h : box.Ring)
    (hfront : xs <+: f.waiting box) {limit capacity : Nat} (hlimit : xs.length ≤ limit)
    (hfits : (xs.map (·.1.wireSize)).sum ≤ capacity) :
    xs.length ≤ (box.drainUpTo limit capacity packet).1.length := by
  induction xs generalizing box limit capacity with
  | nil => exact Nat.zero_le _
  | cons x rest ih =>
    obtain ⟨hlength, hslot⟩ := waiting_spec h f
    obtain ⟨others, hothers⟩ := hfront
    rw [List.map_cons, List.sum_cons] at hfits
    rw [List.length_cons] at hlimit
    obtain ⟨limit, rfl⟩ : ∃ l, limit = l + 1 := ⟨limit - 1, by omega⟩
    have hpos : 0 < (f.waiting box).length := by
      rw [← hothers]
      simp
    have hstart : box.slot box.start = .pending x.1 := by
      have hs := (hslot 0 hpos).1
      simp only [← hothers, List.cons_append, List.getElem_cons_zero, Place.forward_zero] at hs
      exact hs
    have hone : box.drainOne capacity packet = some (x.1, box.drained x.1 packet) :=
      Outbox.drainOne_some_iff.mpr ⟨by omega, hstart, by omega, rfl⟩
    have hring : (box.drained x.1 packet).Ring := h.drained (by omega)
    have hsplit := waiting_drained (f := f) h (.cons h (by omega) hstart (.nil hring))
    rw [← hothers, List.cons_append] at hsplit
    have hrest : rest <+: f.waiting (box.drained x.1 packet) := ⟨others, (List.cons.inj hsplit).2⟩
    have hih : rest.length ≤
        ((box.drained x.1 packet).drainUpTo limit (capacity - x.1.wireSize) packet).1.length :=
      ih hring hrest (by omega) (by omega)
    simp only [Outbox.drainUpTo, hone, List.length_cons]
    omega

end

end Manifest

namespace Outbox

section
variable {box after : Outbox} {places : List Place} {ms : List Message}

theorem Ring.map_fst_waiting (h : box.Ring) (f : Manifest) :
    (f.waiting box).map (·.1) = box.pending := by
  have hlength := (Manifest.waiting_spec h f).1
  have hpending : box.pending.length ≤ box.length :=
    (List.length_filterMap_le _ _).trans (List.length_range).le
  rw [Manifest.waiting, List.map_fst_zip (by simpa using hpending)]

theorem Ring.pushAll (h : box.Ring) {acked : UInt32} (hok : (pushAll acked box ms).1 = .ok ()) :
    (pushAll acked box ms).2.Ring ∧ (pushAll acked box ms).2.nextId = box.nextId ∧
      (pushAll acked box ms).2.pending = box.pending ++ ms := by
  let f : Manifest := fun _ => 0
  have hpushed : f.Pushed (f.pushAll acked 0 box ms) box (Outbox.pushAll acked box ms).2 0 ms :=
    Manifest.pushed_pushAll ms h hok
  have hwaiting : (f.pushAll acked 0 box ms).waiting (Outbox.pushAll acked box ms).2 =
      f.waiting box ++ ms.map fun m => (m, 0) := Manifest.waiting_pushAll ms h hok
  refine ⟨hpushed.ring, hpushed.nextId_eq, ?_⟩
  rw [← hpushed.ring.map_fst_waiting, hwaiting, List.map_append, h.map_fst_waiting]
  simp [Function.comp_def]

theorem Drained.pending_eq {packet : UInt8} (h : box.Ring)
    (hdrained : Drained box after packet ms) : box.pending = ms ++ after.pending := by
  let f : Manifest := fun _ => 0
  rw [← h.map_fst_waiting f, Manifest.waiting_drained h hdrained, List.map_append,
    hdrained.ring.map_fst_waiting, List.map_fst_zip (by simp)]

theorem Released.pending_eq (h : box.Ring) (hreleased : Released box after places ms) :
    after.pending = box.pending := by
  let f : Manifest := fun _ => 0
  rw [← hreleased.ring.map_fst_waiting f, Manifest.waiting_released h hreleased, h.map_fst_waiting]

theorem Ring.pending_requeue (h : box.Ring) (horder : box.InOrder places)
    (hcarried : ∀ i ∈ places, ∃ m packet, box.slot i = .inFlight m packet) :
    (box.requeue places).2.pending = (places.filterMap fun i => (box.slot i).inFlight?) ++
      box.pending := by
  let f : Manifest := fun _ => 0
  rw [← (h.requeue horder hcarried).2.ring.map_fst_waiting (f.requeue box places),
    Manifest.waiting_requeue h horder hcarried, List.map_append, h.map_fst_waiting, Manifest.aboard,
    List.map_filterMap]
  simp only [Option.map_map, Function.comp_def, Option.map_id']

end

end Outbox

end Courier
