import Courier.Packet.Codec
import Courier.Proofs.Arrivals.Numbering
import Courier.Transport

/-!
# A packet that was taken in is refused from then on

A copy of a datagram is recognised however far the window moved since, as long
as it is less than half the range of a sequence behind (`Tracks.refuses`).
`Covers` says how far behind the datagrams of one channel can be.
-/

namespace Courier.Arrivals

section
variable {a : Arrivals} {reference x : Int} {taken : List Int} {s : UInt32}

theorem Tracks.refuses (h : a.Tracks reference taken) (hsynced : a.synced = true) (hx : x ∈ taken)
    (hs : (s.toNat : Int) = x % 2 ^ 32) (hrecent : reference - x < 2 ^ 31) :
    (a.record s).1.accepted = false := by
  have hle := h.le_reference x hx
  have hnewest := h.newest_eq
  have holder : Serial.ahead32 s a.newest = false := by
    rw [← Bool.not_eq_true, Serial.ahead32_iff hs hnewest (by omega) hrecent]
    omega
  have hback : ((a.newest - s).toNat : Int) = reference - x := by
    rw [UInt32.toNat_sub]
    omega
  rw [record_older hsynced holder]
  split
  · rfl
  next hwide =>
    have hseen := h.seen_iff _ (Nat.not_le.mp hwide)
    rw [hback, Int.sub_sub_self] at hseen
    rw [← back_eq (n := { record := a }) (Nat.not_le.mp hwide)] at hseen
    rw [if_neg (by simp [hseen.mpr (.inl hx)])]
    rfl

/-- A first packet with the sequence that stands for "none yet" changes nothing but that it came. -/
theorem tracks_highest : (({} : Arrivals).advance 0xFFFFFFFF).Tracks (-1) [-1] where
  newest_eq := by decide
  neg_one_le := by decide
  le_reference := by simp
  seen_iff k _ := by
    have hfull : (({} : Arrivals).advance 0xFFFFFFFF).seen = 0xFFFFFFFF := by decide
    rw [hfull, Window.has_full]
    simp only [true_iff]
    omega

end

/-- The datagrams were accepted, and the newest packet has moved so far since
the first: each of them is one that the record stands for. -/
structure Covers (a : Arrivals) (accepted : List Datagram) (travelled : Nat) (reference : Int)
    (taken : List Int) : Prop where
  tracks : a.Tracks reference taken
  unsynced : a.synced = false → a = {} ∧ accepted = []
  recent : ∀ d ∈ accepted, ∀ p, Packet.decode d.bytes = .ok p →
    ∃ x ∈ taken, (p.header.sequence.toNat : Int) = x % 2 ^ 32 ∧ reference - x ≤ travelled + 31

def stride (a a' : Arrivals) : Nat := if a.synced then (a'.newest - a.newest).toNat else 0

section
variable {a : Arrivals} {accepted : List Datagram} {travelled : Nat} {reference x : Int}
  {taken : List Int} {s : UInt32} {d : Datagram} {p : Packet}

theorem covers_empty : ({} : Arrivals).Covers [] 0 (-1) [] :=
  ⟨tracks_empty, fun _ => ⟨rfl, rfl⟩, by simp⟩

theorem Covers.refuses (h : a.Covers accepted travelled reference taken)
    (htravelled : travelled < 2 ^ 30) (hd : d ∈ accepted) (hp : Packet.decode d.bytes = .ok p) :
    (a.record p.header.sequence).1.accepted = false := by
  obtain ⟨x, hx, hs, hrecent⟩ := h.recent d hd p hp
  have hsynced : a.synced = true := by
    cases hsynced : a.synced with
    | true => rfl
    | false =>
      rw [(h.unsynced hsynced).2] at hd
      cases hd
  exact h.tracks.refuses hsynced hx hs (by omega)

@[simp] theorem stride_self (a : Arrivals) : a.stride a = 0 := by simp [stride]

theorem Covers.grow {a' : Arrivals} (h : a.Covers accepted travelled reference taken)
    (hp : Packet.decode d.bytes = .ok p)
    (htracks : a'.Tracks (reference + a.stride a') (taken ++ [x])) (hsynced : a'.synced = true)
    (hx : (p.header.sequence.toNat : Int) = x % 2 ^ 32)
    (hrecent : reference + a.stride a' - x ≤ 31) :
    a'.Covers (accepted ++ [d]) (travelled + a.stride a') (reference + a.stride a')
      (taken ++ [x]) where
  tracks := htracks
  unsynced hnot := by simp [hsynced] at hnot
  recent d' hd' q hq := by
    rcases List.mem_append.mp hd' with hold | hnew
    · obtain ⟨y, hy, hs, hrecent⟩ := h.recent d' hold q hq
      exact ⟨y, List.mem_append_left _ hy, hs, by omega⟩
    · obtain rfl := List.mem_singleton.mp hnew
      obtain rfl := Except.ok.inj (hp.symm.trans hq)
      exact ⟨x, List.mem_append_right _ (List.mem_singleton_self x), hx, by omega⟩

theorem covers_first {reference : Int} (hp : Packet.decode d.bytes = .ok p)
    (htracks : (({} : Arrivals).advance p.header.sequence).Tracks reference [reference]) :
    (({} : Arrivals).advance p.header.sequence).Covers [d] travelled reference [reference] where
  tracks := htracks
  unsynced hnot := nomatch hnot
  recent d' hd' q hq := by
    obtain rfl := List.mem_singleton.mp hd'
    obtain rfl := Except.ok.inj (hp.symm.trans hq)
    exact ⟨reference, List.mem_singleton_self _, htracks.newest_eq, by omega⟩

/-- Each packet that is accepted is covered from then on. -/
theorem Covers.record (h : a.Covers accepted travelled reference taken)
    (hp : Packet.decode d.bytes = .ok p)
    (haccepted : (a.record p.header.sequence).1.accepted = true) :
    ∃ reference' taken', (a.record p.header.sequence).2.Covers (accepted ++ [d])
      (travelled + a.stride (a.record p.header.sequence).2) reference' taken' := by
  cases hsynced : a.synced with
  | false =>
    obtain ⟨rfl, rfl⟩ := h.unsynced hsynced
    rw [record_first hsynced]
    by_cases hhighest : p.header.sequence = 0xFFFFFFFF
    · have htracks : (({} : Arrivals).advance p.header.sequence).Tracks (-1) [-1] := by
        rw [hhighest]
        exact tracks_highest
      exact ⟨_, _, covers_first hp htracks⟩
    · exact ⟨_, _, covers_first hp (tracks_empty.advance hhighest)⟩
  | true =>
    cases hahead : Serial.ahead32 p.header.sequence a.newest with
    | true =>
      obtain ⟨-, -, hrecord⟩ := record_newer hsynced hahead
      have hstride :
          a.stride (a.advance p.header.sequence) = (p.header.sequence - a.newest).toNat := by
        rw [stride, if_pos hsynced]
        rfl
      have hne : p.header.sequence ≠ a.newest := by
        intro heq
        rw [heq, Serial.ahead32, Serial.ahead_irrefl] at hahead
        cases hahead
      have htracks := h.tracks.advance hne
      rw [← hstride] at htracks
      rw [hrecord]
      exact ⟨_, _, h.grow hp htracks rfl htracks.newest_eq (by omega)⟩
    | false =>
      rw [record_older hsynced hahead] at haccepted ⊢
      split at haccepted
      · cases haccepted
      next hwide =>
        split at haccepted
        next hlate =>
          have hb := Nat.not_le.mp hwide
          have htracks := h.tracks.late hb (back_eq (n := { record := a }) hb)
          have hstride (seen : UInt32) : a.stride { a with seen } = 0 := by simp [stride]
          have hnumber : (p.header.sequence.toNat : Int) =
              (reference - (a.newest - p.header.sequence).toNat) % 2 ^ 32 := by
            have hnewest := h.tracks.newest_eq
            have hs := p.header.sequence.toNat_lt
            rw [UInt32.toNat_sub] at hb ⊢
            omega
          rw [if_neg hwide, if_pos hlate]
          refine ⟨_, _, h.grow hp ?_ hsynced hnumber (by rw [hstride]; omega)⟩
          rw [hstride, Int.natCast_zero, Int.add_zero]
          exact htracks
        · cases haccepted

end

end Courier.Arrivals
