import Courier.Arrivals
import Courier.Proofs.Serial
import Courier.Proofs.Window

/-!
# What the record of arrivals says

Packets are numbered without wrapping around. `Tracks` reads a record as the
number of the newest packet and the numbers of all packets taken in; the bits
for packets before the first one are set, as if those had been seen.
-/

namespace Courier.Arrivals

/-- The record `a` stands for packets up to `reference`, of which exactly those
in `taken` were taken in. -/
structure Tracks (a : Arrivals) (reference : Int) (taken : List Int) : Prop where
  newest_eq : (a.newest.toNat : Int) = reference % 2 ^ 32
  neg_one_le : -1 ≤ reference
  le_reference : ∀ x ∈ taken, x ≤ reference
  seen_iff : ∀ k : Nat, k < 32 → (Window.has a.seen (a.newest - UInt32.ofNat k) = true ↔
    reference - k ∈ taken ∨ reference - k < 0)

theorem tracks_empty : ({} : Arrivals).Tracks (-1) [] where
  newest_eq := by decide
  neg_one_le := by decide
  le_reference := by simp
  seen_iff k _ := by
    simp only [Window.has_full, List.not_mem_nil, false_or, true_iff]
    omega

theorem marked_record {a : Arrivals} (h : Window.has a.seen a.newest = true) (s : UInt32) :
    Window.has (a.record s).2.seen (a.record s).2.newest = true := by
  have hadvance : Window.has (a.advance s).seen (a.advance s).newest = true :=
    Window.has_mark_self a.seen a.newest s
  simp only [record]
  repeat' split
  all_goals first
    | exact hadvance
    | exact h
    | exact (Window.has_or _ _ _).trans (by rw [h, Bool.true_or])

section
variable {a : Arrivals} {reference x : Int} {taken : List Int} {s : UInt32}

theorem back_of_ahead (hd : (s - a.newest).toNat ≤ k) (hk : k < 32) :
    s - UInt32.ofNat k = a.newest - UInt32.ofNat (k - (s - a.newest).toNat) := by
  have hs := s.toNat_lt
  have hn := a.newest.toNat_lt
  apply UInt32.toNat_inj.mp
  rw [Window.toNat_back s hk, Window.toNat_back a.newest (by omega)]
  rw [UInt32.toNat_sub] at hd ⊢
  omega

theorem Tracks.advance (h : a.Tracks reference taken) (hne : s ≠ a.newest) :
    (a.advance s).Tracks (reference + (s - a.newest).toNat)
      (taken ++ [reference + (s - a.newest).toNat]) := by
  have hpos : 0 < (s - a.newest).toNat := by
    have hs := s.toNat_lt
    have hn := a.newest.toNat_lt
    have : s.toNat ≠ a.newest.toNat := fun e => hne (UInt32.toNat_inj.mp e)
    rw [UInt32.toNat_sub]
    omega
  have hle := h.neg_one_le
  refine ⟨?_, by omega, ?_, ?_⟩
  · have hs := s.toNat_lt
    have hn := a.newest.toNat_lt
    have := h.newest_eq
    rw [UInt32.toNat_sub]
    show (s.toNat : Int) = _
    omega
  · intro x hx
    rcases List.mem_append.mp hx with hx | hx
    · have := h.le_reference x hx
      omega
    · exact Int.le_of_eq (List.mem_singleton.mp hx)
  · intro k hk
    have hnot (hkd : k < (s - a.newest).toNat) : reference + (s - a.newest).toNat - k ∉ taken := by
      intro hx
      have := h.le_reference _ hx
      omega
    show Window.has (Window.mark a.seen _ _ _) (s - UInt32.ofNat k) = true ↔ _
    rw [Window.has_mark_back a.seen a.newest s hk]
    by_cases hkd : (s - a.newest).toNat ≤ k
    · have hseen := h.seen_iff (k - (s - a.newest).toNat) (by omega)
      rw [← back_of_ahead hkd hk,
        show reference - ((k - (s - a.newest).toNat : Nat) : Int) =
          reference + (s - a.newest).toNat - k by omega] at hseen
      have hk0 : k ≠ 0 := by omega
      have hold : reference + (s - a.newest).toNat - k ≠ reference + (s - a.newest).toNat := by
        omega
      simp only [hk0, hkd, decide_true, decide_false, Bool.false_or, Bool.true_and, hseen,
        List.mem_append, List.mem_singleton, hold, or_false]
    · have hin := hnot (by omega)
      simp only [hkd, decide_false, Bool.false_and, Bool.or_false, decide_eq_true_eq,
        List.mem_append, List.mem_singleton, hin, false_or]
      omega

theorem Tracks.late (h : a.Tracks reference taken) {k : Nat} (hk : k < 32)
    (hs : s = a.newest - UInt32.ofNat k) :
    ({ a with seen := a.seen ||| Window.bit (Window.index s) } : Arrivals).Tracks reference
      (taken ++ [reference - k]) := by
  refine ⟨h.newest_eq, h.neg_one_le, ?_, ?_⟩
  · intro x hx
    rcases List.mem_append.mp hx with hx | hx
    · exact h.le_reference x hx
    · rw [List.mem_singleton.mp hx]
      omega
  · intro j hj
    have hn := a.newest.toNat_lt
    have hbit :
        Window.has (Window.bit (Window.index s)) (a.newest - UInt32.ofNat j) = decide (j = k) := by
      rw [Window.has_bit, Window.toNat_index, hs, Window.toNat_back _ hk, Window.toNat_back _ hj,
        Bool.eq_iff_iff]
      simp only [decide_eq_true_eq]
      omega
    have hseen := h.seen_iff j hj
    have hjk : reference - j = reference - k ↔ j = k := by omega
    simp only [Window.has_or, hbit, Bool.or_eq_true, decide_eq_true_eq, hseen, List.mem_append,
      List.mem_singleton, hjk, or_right_comm]

theorem Tracks.record (h : a.Tracks reference taken) (hsync : a.synced = false → reference = -1)
    (hs : (s.toNat : Int) = x % 2 ^ 32) (hx : 0 ≤ x) (hxr : x - reference < 2 ^ 31)
    (hrx : reference - x < 2 ^ 31) (hacc : (a.record s).1.accepted = true) :
    (a.record s).2.Tracks (max reference x) (taken ++ [x]) ∧ (a.record s).2.synced = true := by
  have hnew := h.newest_eq
  have hahead := Serial.ahead32_iff hs hnew hxr hrx
  have hadvance (hlt : reference < x) : (a.advance s).Tracks (max reference x) (taken ++ [x]) := by
    have hd : reference + (s - a.newest).toNat = x := by
      rw [UInt32.toNat_sub]
      omega
    have hne : s ≠ a.newest := by
      intro e
      rw [e] at hs
      omega
    have := h.advance hne
    rw [hd] at this
    rwa [Int.max_eq_right (by omega)]
  revert hacc
  simp only [Arrivals.record]
  split
  next hunsynced =>
    have := hsync (by simpa using hunsynced)
    exact fun _ => ⟨hadvance (by omega), rfl⟩
  next hsynced =>
    split
    next hlt => exact fun _ => ⟨hadvance (hahead.mp hlt), rfl⟩
    next hge =>
      have hle : x ≤ reference := by
        have := mt hahead.mpr hge
        omega
      split
      · simp [Arrival.accepted]
      · split
        · simp [Arrival.accepted]
        next hwindow =>
          split
          · simp [Arrival.accepted]
          · intro _
            have hwide : ¬ 32 ≤ (a.newest - s).toNat :=
              fun h => hwindow (UInt32.le_iff_toNat_le.mpr h)
            rw [UInt32.toNat_sub] at hwide
            have hback : s = a.newest - UInt32.ofNat (reference - x).toNat := by
              apply UInt32.toNat_inj.mp
              rw [Window.toNat_back _ (by omega)]
              omega
            have hlate := h.late (by omega) hback
            rw [show reference - ((reference - x).toNat : Int) = x by omega] at hlate
            rw [Int.max_eq_left hle]
            exact ⟨hlate, by simpa using hsynced⟩

end

end Courier.Arrivals
