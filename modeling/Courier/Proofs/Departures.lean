import Courier.Departures
import Courier.Proofs.Serial
import Courier.Proofs.Window

/-!
# What an acknowledgement changes

`acknowledge_outcomes` says once what the acknowledgement fields of a packet can do, and
when. `has_reported` reads the new record packet by packet. Whatever its fields
claim, a packet acknowledges none that is later than its own `ack`
(`acknowledge_bounded`).
-/

namespace Courier.Departures

@[simp] theorem acked_sampleAt (now : Time) (d : Departures) (index : UInt32) :
    (sampleAt now d index).acked = d.acked := by
  simp only [sampleAt]
  split <;> rfl

@[simp] theorem lastAck_sampleAt (now : Time) (d : Departures) (index : UInt32) :
    (sampleAt now d index).lastAck = d.lastAck := by
  simp only [sampleAt]
  split <;> rfl

theorem foldl_sampleAt (now : Time) (indices : List UInt32) (d : Departures) :
    (indices.foldl (sampleAt now) d).sequence = d.sequence ∧
      (indices.foldl (sampleAt now) d).acked = d.acked ∧
      (indices.foldl (sampleAt now) d).lastAck = d.lastAck := by
  induction indices generalizing d with
  | nil => exact ⟨rfl, rfl, rfl⟩
  | cons i rest ih =>
    obtain ⟨hs, ha, hl⟩ := ih (sampleAt now d i)
    exact ⟨hs.trans (sequence_sampleAt now d i), ha.trans (acked_sampleAt now d i),
      hl.trans (lastAck_sampleAt now d i)⟩

/-- The positions that a report on the packets up to `ack` acknowledges. -/
def reported (d : Departures) (ack bits : UInt32) : UInt32 :=
  bits &&& Window.keep (Window.index ack) (Window.index d.sequence)

/-- All that the acknowledgement fields of a packet can do, and when. -/
theorem acknowledge_outcomes (d : Departures) (ack bits : UInt32) (now : Time) :
    (Serial.ahead32 ack d.sequence = true ∧ d.acknowledge ack bits now = (.ahead, d)) ∨
      ((∃ last, d.lastAck = some last ∧ Serial.ahead32 last ack = true) ∧
        d.acknowledge ack bits now = (.stale, d)) ∨
      ((∀ last, d.lastAck = some last → Serial.ahead32 last ack = false) ∧
        ((32 ≤ (d.sequence - ack).toNat ∧
            d.acknowledge ack bits now =
              (.desync (d.sequence - ack), { d with lastAck := some ack, acked := 0 })) ∨
          ((d.sequence - ack).toNat < 32 ∧
            d.acknowledge ack bits now = (.applied (d.reported ack bits &&& ~~~d.acked),
              (Window.indices.filter (Window.has (d.reported ack bits &&& ~~~d.acked))).foldl
                (sampleAt now)
                { d with lastAck := some ack, acked := d.reported ack bits })))) := by
  simp only [acknowledge]
  split
  next hahead => exact .inl ⟨hahead, rfl⟩
  · split
    next hstale => exact .inr (.inl ⟨by simpa [Option.any_eq_true] using hstale, rfl⟩)
    next hstale =>
      have hlast : ∀ last, d.lastAck = some last → Serial.ahead32 last ack = false := by
        intro last hl
        simpa [hl] using hstale
      refine .inr (.inr ⟨hlast, ?_⟩)
      split
      next hgap => exact .inl ⟨UInt32.le_iff_toNat_le.mp hgap, rfl⟩
      next hgap =>
        exact .inr ⟨Nat.lt_of_not_le fun hle => hgap (UInt32.le_iff_toNat_le.mpr hle), rfl⟩

theorem acknowledge_cases (d : Departures) (ack bits : UInt32) (now : Time) :
    (d.acknowledge ack bits now).2.sequence = d.sequence ∧
      ((((d.acknowledge ack bits now).1 = .ahead ∨ (d.acknowledge ack bits now).1 = .stale) ∧
          (d.acknowledge ack bits now).2.acked = d.acked) ∨
        ((d.acknowledge ack bits now).1 = .desync (d.sequence - ack) ∧
          (d.acknowledge ack bits now).2.acked = 0) ∨
        ((d.acknowledge ack bits now).1 = .applied (d.reported ack bits &&& ~~~d.acked) ∧
          (d.sequence - ack).toNat < 32 ∧
          (d.acknowledge ack bits now).2.acked = d.reported ack bits)) := by
  rcases d.acknowledge_outcomes ack bits now with ⟨-, h⟩ | ⟨-, h⟩ | ⟨-, ⟨-, h⟩ | ⟨hgap, h⟩⟩
  · rw [h]
    exact ⟨rfl, .inl ⟨.inl rfl, rfl⟩⟩
  · rw [h]
    exact ⟨rfl, .inl ⟨.inr rfl, rfl⟩⟩
  · rw [h]
    exact ⟨rfl, .inr (.inl ⟨rfl, rfl⟩)⟩
  · obtain ⟨hs, ha, -⟩ := foldl_sampleAt now _ _
    rw [h]
    exact ⟨hs, .inr (.inr ⟨rfl, hgap, ha⟩)⟩

/-- A report is ignored as a whole, or it is not older than the last one and
takes its place. -/
theorem acknowledge_replaces (d : Departures) (ack bits : UInt32) (now : Time) :
    (d.acknowledge ack bits now).2 = d ∨
      ((d.acknowledge ack bits now).2.lastAck = some ack ∧
        (∀ last, d.lastAck = some last → Serial.ahead32 last ack = false) ∧
        ((32 ≤ (d.sequence - ack).toNat ∧ (d.acknowledge ack bits now).2.acked = 0) ∨
          ((d.sequence - ack).toNat < 32 ∧
            (d.acknowledge ack bits now).2.acked = d.reported ack bits))) := by
  rcases d.acknowledge_outcomes ack bits now with ⟨-, h⟩ | ⟨-, h⟩ | ⟨hlast, ⟨hgap, h⟩ | ⟨hgap, h⟩⟩
  · exact .inl (by rw [h])
  · exact .inl (by rw [h])
  · rw [h]
    exact .inr ⟨rfl, hlast, .inl ⟨hgap, rfl⟩⟩
  · obtain ⟨-, ha, hl⟩ := foldl_sampleAt now _ _
    rw [h]
    exact .inr ⟨hl, hlast, .inr ⟨hgap, ha⟩⟩

/-- Counted back from the newest packet sent, a report says of each packet up to
`ack` what its bit says, and that no later one was seen. -/
theorem has_reported (d : Departures) (ack bits : UInt32) (hgap : (d.sequence - ack).toNat < 32)
    {k : Nat} (hk : k < 32) :
    Window.has (d.reported ack bits) (d.sequence - UInt32.ofNat k) =
      (Window.has bits (d.sequence - UInt32.ofNat k) && decide ((d.sequence - ack).toNat ≤ k)) := by
  rw [reported, Window.has_and, Window.has_keep_back _ _ hk, Nat.mod_eq_of_lt hgap]

theorem has_reported_later (d : Departures) {ack s : UInt32} (bits : UInt32)
    (hgap : (d.sequence - ack).toNat < 32) (hs : (d.sequence - s).toNat < 32)
    (hlater : Serial.ahead32 s ack = true) : Window.has (d.reported ack bits) s = false := by
  have hlt := (Serial.ahead32_iff_back (n := d.sequence) (by omega) (by omega)).mp hlater
  rw [← Window.back_sub s d.sequence, has_reported d ack bits hgap hs, decide_eq_false (by omega),
    Bool.and_false]

/-- A report on a packet not sent yet, or older than the last report, changes nothing,
and after one from a whole window behind no packet is acknowledged. After any other,
exactly those of the last 32 packets are that it marks and that are not later than
its `ack`, and the answer names those that were not before. So no report
acknowledges a packet later than its `ack`. -/
theorem acknowledge_bounded (d : Departures) (ack bits : UInt32) (now : Time) :
    (match d.acknowledge ack bits now with
      | (.ahead, after) => Serial.ahead32 ack d.sequence = true ∧ after = d
      | (.stale, after) => (∃ last, d.lastAck = some last ∧ Serial.ahead32 last ack = true) ∧
          after = d
      | (.desync gap, after) =>
        gap = d.sequence - ack ∧ 32 ≤ gap.toNat ∧ ∀ index, after.isAcked index = false
      | (.applied newly, after) =>
        (d.sequence - ack).toNat < 32 ∧
          (∀ k < 32, after.isAcked (d.sequence - UInt32.ofNat k) = true ↔
            (d.sequence - ack).toNat ≤ k ∧ Window.has bits (d.sequence - UInt32.ofNat k) = true) ∧
          ∀ index, Window.has newly index = true ↔
            after.isAcked index = true ∧ d.isAcked index = false) ∧
      ∀ s, (d.sequence - s).toNat < 32 → Serial.ahead32 s ack = true → d.isAcked s = false →
        (d.acknowledge ack bits now).2.isAcked s = false := by
  rcases d.acknowledge_outcomes ack bits now with
    ⟨hahead, h⟩ | ⟨hstale, h⟩ | ⟨-, ⟨hgap, h⟩ | ⟨hgap, h⟩⟩
  · rw [h]
    exact ⟨⟨hahead, rfl⟩, fun s _ _ hfree => hfree⟩
  · rw [h]
    exact ⟨⟨hstale, rfl⟩, fun s _ _ hfree => hfree⟩
  · rw [h]
    exact ⟨⟨rfl, hgap, Window.has_zero⟩, fun s _ _ _ => Window.has_zero s⟩
  · obtain ⟨-, ha, -⟩ := foldl_sampleAt now
      (Window.indices.filter (Window.has (d.reported ack bits &&& ~~~d.acked)))
      { d with lastAck := some ack, acked := d.reported ack bits }
    rw [h]
    refine ⟨⟨hgap, fun k hk => ?_, fun index => ?_⟩, fun s hs hlater _ => ?_⟩
    · rw [isAcked, ha, has_reported d ack bits hgap hk, Bool.and_eq_true, decide_eq_true_eq,
        and_comm]
    · rw [isAcked, isAcked, ha, Window.has_and, Window.has_not, Bool.and_eq_true, Bool.not_eq_true']
    · rw [isAcked, ha, has_reported_later d bits hgap hs hlater]

def restarted : Departures := { sequence := 2, acked := 0 }

/-- A report that ends at packet `2 ^ 32 - 1` and marks every packet, also those after it. -/
theorem acknowledge_bounded_restarted :
    ∃ after, restarted.acknowledge 0xFFFFFFFF 0xFFFFFFFF 0 = (.applied 0xFFFFFFF8, after) ∧
      (2 : UInt32) - UInt32.ofNat 3 = 0xFFFFFFFF ∧ after.isAcked (2 - UInt32.ofNat 3) = true ∧
      after.isAcked 1 = false := by
  have hbounded := acknowledge_bounded restarted 0xFFFFFFFF 0xFFFFFFFF 0
  have houtcome : (restarted.acknowledge 0xFFFFFFFF 0xFFFFFFFF 0).1 = .applied 0xFFFFFFF8 := by
    decide +kernel
  cases h : restarted.acknowledge 0xFFFFFFFF 0xFFFFFFFF 0 with
  | mk outcome after =>
    rw [h] at hbounded houtcome
    subst houtcome
    obtain ⟨⟨-, hmarked, -⟩, hlater⟩ := hbounded
    exact ⟨after, rfl, by decide, (hmarked 3 (by decide)).mpr ⟨by decide, by decide⟩,
      hlater 1 (by decide) (by decide) (by decide)⟩

end Courier.Departures
