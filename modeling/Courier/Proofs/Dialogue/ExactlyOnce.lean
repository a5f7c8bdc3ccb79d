import Courier.Proofs.Dialogue.Integrity

/-!
# Critical payloads are returned exactly once

Two things stand in the way. A payload that is sent again after 128 others is
taken for a new one and returned twice. And the group of a payload makes way
when a ninth one opens, while its messages stay acknowledged, so that it is never
returned (`returned_twice_or_never`). Nothing else does (`critical_returned_once`).
-/

namespace Courier.Dialogue

section
variable {d : Dialogue} {p : Payload} {n : Nat}

theorem Reachable.count_deliveries (h : d.Reachable Chronicle.Orderly)
    (hkinds : ∀ p ∈ d.left.payloads, p.kind ≠ .announcement) (hdistinct : d.left.payloads.Nodup)
    (hreach : Intake.InReach (d.right.intake.map (·.2))) (hp : d.left.payloads[n]? = some p) :
    (d.right.deliveries.map (·.payload)).count p =
      (Intake.takeAll d.right.intake).returned.count n := by
  have hreturns : d.right.Returns := h.swap.returns
  have hfaithful := Intake.takeAll_faithful (h.sendable hkinds) h.swap.intake_belongs hreach
  rw [hreturns.deliveries_eq, Intake.returned, List.count_eq_countP, List.count_eq_countP,
    List.map_map, List.countP_map, List.countP_map]
  refine List.countP_congr ?_
  intro x hx
  obtain ⟨q, hq, heq⟩ := hfaithful x hx
  have hpayload : x.1.payload = q := by
    rw [heq]
    rfl
  simp only [Function.comp_apply, beq_iff_eq, hpayload]
  constructor
  · rintro rfl
    obtain ⟨hn, hn'⟩ := List.getElem?_eq_some_iff.mp hp
    obtain ⟨hx, hx'⟩ := List.getElem?_eq_some_iff.mp hq
    exact (hdistinct.getElem_inj_iff).mp (hx'.trans hn'.symm)
  · rintro rfl
    exact Option.some.inj (hq.symm.trans hp)

/-- A critical payload is returned at most once, and exactly once when all its
messages were reported as delivered, unless its group made way for another one. -/
theorem critical_returned_once (h : d.Reachable Chronicle.Orderly)
    (hkinds : ∀ p ∈ d.left.payloads, p.kind ≠ .announcement) (hdistinct : d.left.payloads.Nodup)
    (hcount : d.left.sent.length ≤ 2 ^ 30) (hreach : Intake.InReach (d.right.intake.map (·.2)))
    (hp : d.left.payloads[n]? = some p) (hc : p.critical = true) :
    (d.right.deliveries.map (·.payload)).count p ≤ 1 ∧
      ((∀ m ∈ p.pieces n, (n, m.envelope) ∈ d.left.confirmed) →
        n ∉ (Intake.takeAll d.right.intake).givenUp →
        (d.right.deliveries.map (·.payload)).count p = 1) := by
  have hsendable := h.sendable hkinds
  have hbelongs : ∀ x ∈ d.right.intake, Payload.Belongs d.left.payloads x := h.swap.intake_belongs
  have honce := Intake.takeAll_once hsendable hbelongs hreach hp hc
  rw [h.count_deliveries hkinds hdistinct hreach hp]
  refine ⟨honce, ?_⟩
  intro hconfirmed hgiven
  have hall : ∀ m ∈ p.pieces n, (m, n) ∈ d.right.intake := by
    intro m hm
    obtain ⟨m', hm', henvelope⟩ : ∃ m', (m', n) ∈ d.right.intake ∧ m'.envelope = m.envelope :=
      h.confirmed_taken hcount _ (hconfirmed m hm) ((Payload.critical_of_mem hm).trans hc)
    obtain ⟨q, hq, hpiece⟩ := hbelongs _ hm'
    obtain rfl := Option.some.inj (hq.symm.trans hp)
    obtain rfl := (hsendable q (List.mem_of_getElem? hp)).eq_of_order hpiece hm
      (congrArg Envelope.order henvelope)
    exact hm'
  have hmem := Intake.mem_returned_takeAll hsendable hbelongs hreach hp hgiven hall
  exact Nat.le_antisymm honce (List.count_pos_iff.mpr hmem)

end

open Turn

def confirmed : Dialogue :=
  ([queue true [7]] ++ tick ++ [toRight 0] ++ tock ++ [toLeft 0]).foldl play quiet

theorem critical_returned_once_confirmed :
    (confirmed.right.deliveries.map (·.payload)).count
    { kind := .data, critical := true, data := [7] } = 1 :=
  (critical_returned_once (n := 0) (.playAll (.start _ _ _ _) (by decide +kernel))
    (by decide +kernel)
    (by decide +kernel) (by decide +kernel) (by decide +kernel) (by decide +kernel) rfl).2
    (by decide +kernel) (by decide +kernel)

/-- Nothing comes back from the right side, so the first packet is sent again,
after 129 other payloads. -/
def resentTurns : List Turn :=
  [queue true [1]] ++ tick ++ [toRight 0] ++
    (List.range 4).flatMap (fun k =>
      (List.range 31).map (fun i => queue false [UInt8.ofNat (31 * k + i), 0]) ++ tick ++
        [toRight (k + 1)]) ++
    (List.range 5).map (fun i => queue false [UInt8.ofNat (124 + i), 0]) ++
    (List.range 28).flatMap fun k => tick ++ [toRight (k + 5)]

def resent : Dialogue := resentTurns.foldl play quiet

/-- Nine payloads are cut off before their last parts. Then the last part of the
first one arrives, and both sides hear of each other. -/
def crowdedTurns : List Turn :=
  (List.range 9).flatMap (fun k =>
    [queue (k == 0) (List.replicate 480 (UInt8.ofNat k))] ++ tick ++ [toRight (2 * k)] ++ tick) ++
    (List.range 15).flatMap (fun k => tock ++ [toLeft k] ++ tick ++ [toRight (18 + k)]) ++
    tick ++ [toRight 33] ++ tock ++ [toLeft 15]

def crowded : Dialogue := crowdedTurns.foldl play quiet

/-- Beyond the bound on reach a critical payload is returned twice, and one whose
group made way is never returned although all of it was reported as delivered. -/
theorem returned_twice_or_never :
    (resent.Reachable Chronicle.Orderly ∧ (∀ p ∈ resent.left.payloads, p.kind ≠ .announcement) ∧
        resent.left.payloads.Nodup ∧ resent.left.sent.length ≤ 2 ^ 30 ∧
        resent.right.sent.length ≤ 2 ^ 30 ∧
        (resent.right.deliveries.map (·.payload)).count
          { kind := .data, critical := true, data := [1] } = 2) ∧
      (crowded.Reachable Chronicle.Orderly ∧ (∀ p ∈ crowded.left.payloads, p.kind ≠ .announcement) ∧
        crowded.left.payloads.Nodup ∧ crowded.left.sent.length ≤ 2 ^ 30 ∧
        crowded.right.sent.length ≤ 2 ^ 30 ∧
        ∃ p ∈ crowded.left.payloads[0]?, p.critical = true ∧
          (∀ m ∈ p.pieces 0, (0, m.envelope) ∈ crowded.left.confirmed) ∧
          (crowded.right.deliveries.map (·.payload)).count p = 0) := by
  have hresent :
    quiet.Legal resentTurns = true ∧ (∀ p ∈ resent.left.payloads, p.kind ≠ .announcement) ∧
      resent.left.payloads.Nodup ∧ resent.left.sent.length ≤ 2 ^ 30 ∧
      resent.right.sent.length ≤ 2 ^ 30 ∧
      (resent.right.deliveries.map (·.payload)).count
      { kind := .data, critical := true, data := [1] } = 2 := by
    decide +kernel
  have hcrowded :
    quiet.Legal crowdedTurns = true ∧ (∀ p ∈ crowded.left.payloads, p.kind ≠ .announcement) ∧
      crowded.left.payloads.Nodup ∧ crowded.left.sent.length ≤ 2 ^ 30 ∧
      crowded.right.sent.length ≤ 2 ^ 30 ∧
      ∃ p ∈ crowded.left.payloads[0]?, p.critical = true ∧
        (∀ m ∈ p.pieces 0, (0, m.envelope) ∈ crowded.left.confirmed) ∧
        (crowded.right.deliveries.map (·.payload)).count p = 0 := by
    decide +kernel
  exact ⟨⟨.playAll (.start _ _ _ _) hresent.1, hresent.2⟩, .playAll (.start _ _ _ _) hcrowded.1,
    hcrowded.2⟩

end Courier.Dialogue
