import Courier.Proofs.Dialogue.Delivery
import Courier.Proofs.Intake.Joined

/-!
# What is returned was queued

Ids of payloads are counted with eight bits, and nothing keeps a sender from
using all of them while its packets are lost. A group that waits for its last
part may then be joined with parts of a payload 256 later (`parts_joined`). As
long as the payloads taken in stay within reach of each other, every payload
returned is one that was queued, put together from its own messages
(`delivery_queued`).
-/

namespace Courier.Dialogue

section
variable {d : Dialogue}

theorem Reachable.sendable (h : d.Reachable Chronicle.Orderly)
    (hkinds : ∀ p ∈ d.left.payloads, p.kind ≠ .announcement) : ∀ p ∈ d.left.payloads, p.Sendable :=
  fun p hp => ⟨h.left_reachable.labelled.fits p hp, hkinds p hp⟩

/-- Each payload returned was queued, with its kind, its critical flag and its bytes.
All messages that were joined to it are messages of that payload, and none of these
is missing. -/
theorem delivery_queued (h : d.Reachable Chronicle.Orderly)
    (hkinds : ∀ p ∈ d.left.payloads, p.kind ≠ .announcement)
    (hreach : Intake.InReach (d.right.intake.map (·.2))) :
    d.right.deliveries = (Joining.takeAll d.right.intake).joined.map (·.1) ∧
      ∀ x ∈ (Joining.takeAll d.right.intake).joined, ∃ n p, d.left.payloads[n]? = some p ∧
        (x.1.kind = p.kind ∧ x.1.critical = p.critical ∧ x.1.data = p.data) ∧
        x.2 ⊆ d.right.intake ∧ ∀ y, y ∈ x.2 ↔ y.1 ∈ p.pieces n ∧ y.2 = n := by
  have hreturns : d.right.Returns := h.swap.returns
  obtain ⟨-, hdeliveries⟩ := Joining.intake_takeAll d.right.intake
  obtain ⟨-, hsubset⟩ := Joining.subset_takeAll d.right.intake
  refine ⟨by rw [hreturns.deliveries_eq, hdeliveries], fun x hx => ?_⟩
  obtain ⟨n, p, hp, heq, hjoined⟩ :=
    Joining.takeAll_joined (h.sendable hkinds) h.swap.intake_belongs hreach x hx
  refine ⟨n, p, hp, ?_, hsubset x hx, hjoined⟩
  rw [heq]
  exact ⟨rfl, rfl, rfl⟩

end

open Turn

def arrival : Dialogue :=
  ([queue false (List.replicate 100 1)] ++ tick ++ [toRight 0]).foldl play quiet

theorem delivery_queued_arrival :
    arrival.right.deliveries.length = 1 ∧
      arrival.right.deliveries = (Joining.takeAll arrival.right.intake).joined.map (·.1) ∧
      ∀ x ∈ (Joining.takeAll arrival.right.intake).joined, ∃ n p,
        arrival.left.payloads[n]? = some p ∧ x.1.data = p.data ∧ x.2.length = 3 ∧
        ∀ y, y ∈ x.2 ↔ y.1 ∈ p.pieces n ∧ y.2 = n := by
  obtain ⟨hdeliveries, hjoined⟩ := delivery_queued (d := arrival)
    (.playAll (.start _ _ _ _) (by decide +kernel)) (by decide +kernel) (by decide +kernel)
  have hthree : ∀ x ∈ (Joining.takeAll arrival.right.intake).joined, x.2.length = 3 := by
    decide +kernel
  refine ⟨by decide +kernel, hdeliveries, fun x hx => ?_⟩
  obtain ⟨n, p, hp, ⟨-, -, hdata⟩, -, hmessages⟩ := hjoined x hx
  exact ⟨n, p, hp, hdata, hthree x hx, hmessages⟩

/-- The first payload is cut off before its last part, 255 others are lost, and
of the next one only the last part arrives. -/
def cutOffTurns : List Turn :=
  [queue false (List.replicate 480 0)] ++ tick ++ [toRight 0] ++ tick ++
    (List.replicate 8 (List.replicate 31 (queue false []) ++ tick)).flatten ++
    List.replicate 7 (queue false []) ++ tick ++
    [queue false (List.replicate 480 1)] ++ tick ++ tick ++ [toRight 12]

def cutOff : Dialogue := cutOffTurns.foldl play quiet

/-- Without the bound on reach, parts of two payloads are joined. -/
theorem parts_joined :
    cutOff.Reachable Chronicle.Orderly ∧ (∀ p ∈ cutOff.left.payloads, p.kind ≠ .announcement) ∧
      cutOff.left.sent.length ≤ 2 ^ 30 ∧ cutOff.right.sent.length ≤ 2 ^ 30 ∧
      ∃ delivery ∈ cutOff.right.deliveries, ∀ p ∈ cutOff.left.payloads, delivery.data ≠ p.data := by
  have hrun :
      quiet.Legal cutOffTurns = true ∧ (∀ p ∈ cutOff.left.payloads, p.kind ≠ .announcement) ∧
      cutOff.left.sent.length ≤ 2 ^ 30 ∧ cutOff.right.sent.length ≤ 2 ^ 30 ∧
      ∃ delivery ∈ cutOff.right.deliveries, ∀ p ∈ cutOff.left.payloads, delivery.data ≠ p.data := by
    decide +kernel
  exact ⟨.playAll (.start _ _ _ _) hrun.1, hrun.2⟩

end Courier.Dialogue
