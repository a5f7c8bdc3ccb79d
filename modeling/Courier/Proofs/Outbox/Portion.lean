import Courier.Proofs.Outbox.Queueing

/-!
# A packet takes as many messages as fit

Messages are taken one by one, so the taking may stop after any of them. What
was taken by then is the front of what is taken in all (`Ring.take_drain`), and
that is the longest front of the pending messages that fits together
(`drain_longest_prefix`).
-/

namespace Courier

namespace Outbox

section
variable {box : Outbox} {capacity : Nat} {packet : UInt8} {ms : List Message}

theorem Reachable.enqueueAll (h : box.Reachable) (ps : List Payload) (acked : UInt32) :
    (ps.foldl (fun box p => (box.enqueue p.kind p.critical p.data acked).2) box).Reachable := by
  induction ps generalizing box with
  | nil => exact h
  | cons p rest ih => exact ih (h.enqueue p.kind p.critical p.data acked)

/-- Stopping early takes the front of what would have been taken. -/
theorem drainUpTo_take (box : Outbox) (limit more capacity : Nat) (packet : UInt8) :
    (box.drainUpTo limit capacity packet).1 =
      (box.drainUpTo (limit + more) capacity packet).1.take limit := by
  induction limit generalizing box capacity with
  | zero => rfl
  | succ limit ih =>
    rw [Nat.add_right_comm]
    simp only [drainUpTo]
    cases box.drainOne capacity packet with
    | none => rfl
    | some taken => exact congrArg (taken.1 :: ·) (ih _ _)

theorem Ring.take_drain (h : box.Ring) (limit capacity : Nat) (packet : UInt8) :
    (box.drainUpTo limit capacity packet).1 = (box.drain capacity packet).1.take limit := by
  have hfew (limit : Nat) : (box.drainUpTo limit capacity packet).1.length ≤ box.length :=
    Nat.le.intro ((Nat.add_comm _ _).trans (h.drainUpTo limit capacity packet).length_eq)
  rcases Nat.le_total limit box.length with hle | hle
  · obtain ⟨more, hmore⟩ := Nat.exists_eq_add_of_le hle
    rw [drain, hmore]
    exact box.drainUpTo_take limit more capacity packet
  · obtain ⟨more, rfl⟩ := Nat.exists_eq_add_of_le hle
    have hsame := box.drainUpTo_take box.length more capacity packet
    rw [List.take_of_length_le (hfew _)] at hsame
    rw [drain, hsame, List.take_of_length_le ((hfew _).trans hle)]

theorem Ring.drain_prefix (h : box.Ring) (capacity : Nat) (packet : UInt8) :
    (box.drain capacity packet).1 <+: box.pending :=
  ⟨_, ((h.drainUpTo box.length capacity packet).pending_eq h).symm⟩

/-- Of the fronts of the pending messages, none that fits is longer than what is taken. -/
theorem Ring.prefix_drain (h : box.Ring) (hfront : ms <+: box.pending)
    (hfits : (ms.map (·.wireSize)).sum ≤ capacity) : ms <+: (box.drain capacity packet).1 := by
  refine List.prefix_of_prefix_length_le hfront (h.drain_prefix capacity packet) ?_
  have hle : ms.length ≤ box.length := h.length_pending ▸ hfront.length_le
  -- the numbers of the payloads play no part here
  let f : Manifest := fun _ => 0
  let front := (f.waiting box).take ms.length
  have hmessages : front.map (·.1) = ms := by
    rw [List.map_take, h.map_fst_waiting, ← List.prefix_iff_eq_take.mp hfront]
  have hsizes : front.map (·.1.wireSize) = ms.map (·.wireSize) := by
    rw [← hmessages, List.map_map]
    rfl
  have hcount : front.length = ms.length := by rw [← hmessages, List.length_map]
  have hfit : front.length ≤ (box.drain capacity packet).1.length :=
    Manifest.length_le_drainUpTo h (List.take_prefix ms.length (f.waiting box))
      (hcount.le.trans hle) (hsizes ▸ hfits)
  exact hcount.ge.trans hfit

/-- Taking all that fits takes the longest front of the pending messages that fits,
and taking at most `limit` messages takes the front of that. What was taken is no
longer pending and is in flight where it stood. Nothing else changes. -/
theorem drain_longest_prefix (h : box.Reachable) (capacity : Nat) (packet : UInt8) :
    let all := (box.drain capacity packet).1
    all <+: box.pending ∧ (all.map (·.wireSize)).sum ≤ capacity ∧
      (∀ ms, ms <+: box.pending → (ms.map (·.wireSize)).sum ≤ capacity → ms <+: all) ∧
      ∀ limit,
        let taken := (box.drainUpTo limit capacity packet).1
        let after := (box.drainUpTo limit capacity packet).2
        taken = all.take limit ∧ box.pending = taken ++ after.pending ∧
          (∀ k (hk : k < taken.length), box.slot (box.start.forward k) = .pending taken[k] ∧
            after.slot (box.start.forward k) = .inFlight taken[k] packet) ∧
          (∀ p, (∀ k < taken.length, p ≠ box.start.forward k) → after.slot p = box.slot p) ∧
          after.next = box.next ∧ after.nextId = box.nextId := by
  have hring := h.ring
  refine ⟨hring.drain_prefix capacity packet, sum_drainUpTo _ _ _ _, fun ms => hring.prefix_drain,
    fun limit => ?_⟩
  intro taken after
  have hdrained : Drained box after packet taken := hring.drainUpTo limit capacity packet
  have hlength := hdrained.length_eq
  have hle := hring.length_le
  refine ⟨hring.take_drain limit capacity packet, hdrained.pending_eq hring, ?_, ?_, ?_,
    hdrained.nextId_eq⟩
  · intro k hk
    have hpending := hdrained.message_eq k hk
    refine ⟨hpending, ?_⟩
    rw [hdrained.slot_eq, Place.offset_forward _ (by omega), if_pos hk, hpending]
    rfl
  · intro p hp
    rw [hdrained.slot_eq, if_neg]
    intro hlt
    exact hp _ hlt (Place.forward_offset box.start p).symm
  · rw [hdrained.ring.next_eq, hdrained.start_eq, Place.forward_forward, hring.next_eq]
    congr 1
    omega

def wrapped : Outbox :=
  let short : Payload := { kind := .data, critical := false, data := [1] }
  let queued : Outbox :=
    (List.replicate 30 short).foldl (fun box p => (box.enqueue p.kind p.critical p.data 0).2) {}
  (((queued.drainUpTo 30 400 0).2.enqueue .data false (List.replicate 200 9) 0).2.requeue
    [⟨29, by decide⟩]).2

theorem drain_longest_prefix_wrapped :
    wrapped.Reachable ∧ wrapped.pending.map (·.wireSize) = [5, 8, 100, 100, 12] ∧
      (∀ ms, ms <+: wrapped.pending → (ms.map (·.wireSize)).sum ≤ 220 → ms.length ≤ 4) ∧
      (wrapped.drainUpTo 2 220 5).1 = (wrapped.drain 220 5).1.take 2 ∧
      (wrapped.drainUpTo 4 220 5).2.pending.map (·.wireSize) = [12] ∧
      (wrapped.drainUpTo 4 220 5).2.slot .origin =
        .inFlight ⟨.data, false, 30, 2, List.replicate 96 9⟩ 5 := by
  have h : wrapped.Reachable :=
    (((Reachable.empty.enqueueAll _ 0).drain 30 400 0).enqueue .data false
      (List.replicate 200 9) 0).requeue _
  have hsizes : wrapped.pending.map (·.wireSize) = [5, 8, 100, 100, 12] := by decide +kernel
  have hall : (wrapped.drain 220 5).1.length = 4 := by decide +kernel
  have hlast : wrapped.slot .origin = .pending ⟨.data, false, 30, 2, List.replicate 96 9⟩ := by
    decide +kernel
  obtain ⟨-, -, hlongest, hfront⟩ := drain_longest_prefix h 220 5
  obtain ⟨htwo, -⟩ := hfront 2
  obtain ⟨hfour, hsplit, hthere, -⟩ := hfront 4
  have hcount : (wrapped.drainUpTo 4 220 5).1.length = 4 := by simp [hfour, hall]
  obtain ⟨hbefore, hafter⟩ := hthere 3 (by omega)
  refine ⟨h, hsizes, fun ms hms hfits => hall ▸ (hlongest ms hms hfits).length_le, htwo, ?_, ?_⟩
  · have hrest := congrArg (List.drop 4) (congrArg (List.map (·.wireSize)) hsplit)
    rw [hsizes, List.map_append, List.drop_left' (by rw [List.length_map, hcount])] at hrest
    exact hrest.symm
  · have hplace : wrapped.start.forward 3 = .origin := by decide +kernel
    rw [hplace, hlast, Slot.pending.injEq] at hbefore
    rw [← hplace, hafter, ← hbefore]

end

end Outbox

end Courier
