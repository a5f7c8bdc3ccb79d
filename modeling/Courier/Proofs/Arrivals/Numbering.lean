import Mathlib.Data.List.Nodup
import Courier.Proofs.Arrivals

/-!
# Every packet is taken in once

Packets that arrive are numbered without wrapping around: the first one keeps
its sequence, a packet that becomes the newest is counted forward from the one
before it, any other is counted back. `taken_once`: no number is taken in twice,
and what is said of an older packet is exact. The one exception is a first
packet with the sequence that stands for "none yet": it inherits the window of
a record without packets, in which everything counts as seen.
-/

namespace Courier

def Arrival.leads : Arrival → Bool
  | .fresh | .resync _ => true
  | .late | .duplicate | .stale => false

namespace Arrivals

/-- A record of arrivals with the numbers of its packets. -/
structure Numbering where
  record : Arrivals := {}
  /-- The number of the newest packet. -/
  reference : Option Int := none
  /-- The numbers of the packets that were taken in. -/
  taken : List Int := []

namespace Numbering

def number (n : Numbering) (s : UInt32) : Int :=
  match n.reference with
  | none => s.toNat
  | some p =>
    if (n.record.record s).1.leads then
      p + (s - n.record.newest).toNat
    else p - (n.record.newest - s).toNat

def add (n : Numbering) (s : UInt32) : Numbering where
  record := (n.record.record s).2
  reference := if (n.record.record s).1.leads then some (n.number s) else n.reference
  taken := if (n.record.record s).1.accepted then n.taken ++ [n.number s] else n.taken

def ofList (sequences : List UInt32) : Numbering := sequences.foldl add {}

/-- What the record says is exact: each number was taken in once, the window
holds the packets that were taken in and those before the first, and an older
packet is judged by its number. -/
structure Exact (n : Numbering) : Prop where
  once : n.taken.Nodup
  window : ∀ p, n.reference = some p → ∀ b : Nat, b < 32 →
    (n.record.seen.toNat.testBit ((p - b) % 32).toNat = true ↔ p - b ∈ n.taken ∨ p - b < 0)
  older : ∀ p, n.reference = some p → ∀ s, Serial.ahead32 s n.record.newest = false →
    let b := (n.record.newest - s).toNat
    (n.record.record s).1 =
      if 32 ≤ b then .stale
      else if 0 < b ∧ p - b ∉ n.taken ∧ 0 ≤ p - b then .late
      else .duplicate

end Numbering

-- ---------------------------------------------------------------------------
-- One arrival
-- ---------------------------------------------------------------------------

section
variable {a : Arrivals} {s : UInt32}

theorem record_first (h : a.synced = false) : a.record s = (.fresh, a.advance s) := by
  simp [record, h]

theorem record_newer (hsynced : a.synced = true) (h : Serial.ahead32 s a.newest = true) :
    (a.record s).1.leads = true ∧ (a.record s).1.accepted = true ∧
    (a.record s).2 = a.advance s := by
  have hrecord :
      a.record s = (if s - a.newest < 32 then .fresh else .resync (s - a.newest), a.advance s) := by
    simp [record, hsynced, h]
  rw [hrecord]
  split
  · exact ⟨rfl, rfl, rfl⟩
  · exact ⟨rfl, rfl, rfl⟩

theorem record_older (hsynced : a.synced = true) (h : Serial.ahead32 s a.newest = false) :
    a.record s =
      if 32 ≤ (a.newest - s).toNat then (.stale, a)
      else if 0 < (a.newest - s).toNat ∧ Window.has a.seen s = false then
        (.late, { a with seen := a.seen ||| Window.bit (Window.index s) })
      else (.duplicate, a) := by
  have hsame : s = a.newest ↔ (a.newest - s).toNat = 0 := by
    rw [← UInt32.toNat_inj, UInt32.toNat_sub]
    have hs := s.toNat_lt
    have hn := a.newest.toNat_lt
    omega
  have hwide : 32 ≤ a.newest - s ↔ 32 ≤ (a.newest - s).toNat := UInt32.le_iff_toNat_le
  simp only [record, hsynced, h, hsame, hwide, Window.has_index, Bool.not_true, Bool.false_eq_true,
    if_false]
  by_cases hzero : (a.newest - s).toNat = 0
  · simp [hzero]
  · cases Window.has a.seen s <;> simp [hzero, Nat.pos_of_ne_zero hzero]

end

-- ---------------------------------------------------------------------------
-- What the numbers keep
-- ---------------------------------------------------------------------------

section
variable {n : Numbering} {p : Int} {s : UInt32}

structure Numbering.Started (n : Numbering) (p : Int) : Prop where
  reference_eq : n.reference = some p
  synced : n.record.synced = true
  tracks : n.record.Tracks p n.taken
  once : n.taken.Nodup

theorem back_eq (hb : (n.record.newest - s).toNat < 32) :
    s = n.record.newest - UInt32.ofNat (n.record.newest - s).toNat := by
  apply UInt32.toNat_inj.mp
  rw [Window.toNat_back _ hb, UInt32.toNat_sub]
  have hs := s.toNat_lt
  have hn := n.record.newest.toNat_lt
  omega

theorem Numbering.Started.has_iff (hn : n.Started p) (hb : (n.record.newest - s).toNat < 32) :
    Window.has n.record.seen s = false ↔
      p - (n.record.newest - s).toNat ∉ n.taken ∧ 0 ≤ p - (n.record.newest - s).toNat := by
  have hseen := hn.tracks.seen_iff _ hb
  rw [← back_eq hb] at hseen
  rw [← Bool.not_eq_true, hseen, not_or, Int.not_lt]

theorem Numbering.started_first (hs : s ≠ 0xFFFFFFFF) :
    (({} : Numbering).add s).Started s.toNat := by
  have hrecord : ({} : Arrivals).record s = (.fresh, ({} : Arrivals).advance s) := record_first rfl
  have hnumber : (-1 : Int) + (s - ({} : Arrivals).newest).toNat = s.toNat := by
    have hne : s.toNat ≠ 0xFFFFFFFF := fun e => hs (UInt32.toNat_inj.mp e)
    have hlt := s.toNat_lt
    rw [UInt32.toNat_sub]
    show (-1 : Int) + ((2 ^ 32 - 0xFFFFFFFF + s.toNat) % 2 ^ 32 : Nat) = s.toNat
    omega
  have htracks := tracks_empty.advance (s := s) hs
  rw [hnumber] at htracks
  constructor
  · simp [add, number, hrecord, Arrival.leads]
  · simp only [add, hrecord]
    rfl
  · simpa [add, number, hrecord, Arrival.accepted] using htracks
  · simp [add, number, hrecord, Arrival.accepted]

theorem Numbering.Started.add_newer (hn : n.Started p)
    (h : Serial.ahead32 s n.record.newest = true) :
    (n.add s).Started (p + (s - n.record.newest).toNat) := by
  obtain ⟨hleads, haccepted, hrecord⟩ := record_newer hn.synced h
  have hne : s ≠ n.record.newest := by
    rintro rfl
    rw [Serial.ahead32, Serial.ahead_irrefl] at h
    cases h
  have hnumber : n.number s = p + (s - n.record.newest).toNat := by
    simp [number, hn.reference_eq, hleads]
  have hnew : p + (s - n.record.newest).toNat ∉ n.taken := by
    intro hmem
    have hle := hn.tracks.le_reference _ hmem
    have hpos : (s - n.record.newest).toNat ≠ 0 := by
      intro hzero
      apply hne
      have hs := s.toNat_lt
      have hn' := n.record.newest.toNat_lt
      rw [UInt32.toNat_sub] at hzero
      apply UInt32.toNat_inj.mp
      omega
    omega
  constructor
  · simp [add, hleads, hnumber]
  · simp only [add, hrecord]
    rfl
  · simpa [add, hrecord, haccepted, hnumber] using hn.tracks.advance hne
  · simpa [add, haccepted, hnumber] using List.Nodup.concat hnew hn.once

theorem Numbering.Started.add_older (hn : n.Started p)
    (h : Serial.ahead32 s n.record.newest = false) : (n.add s).Started p := by
  have hrecord := record_older hn.synced h
  have hkept {x : Arrival} (hx : n.record.record s = (x, n.record)) (hleads : x.leads = false)
      (haccepted : x.accepted = false) : (n.add s).Started p := by
    constructor
    · simp [add, hx, hleads, hn.reference_eq]
    · simpa [add, hx] using hn.synced
    · simpa [add, hx, haccepted] using hn.tracks
    · simpa [add, hx, haccepted] using hn.once
  split at hrecord
  · exact hkept hrecord rfl rfl
  next hwide =>
    split at hrecord
    next hlate =>
      have hb : (n.record.newest - s).toNat < 32 := Nat.not_le.mp hwide
      have hnumber : n.number s = p - (n.record.newest - s).toNat := by
        simp [number, hn.reference_eq, hrecord, Arrival.leads]
      obtain ⟨hnew, -⟩ := (hn.has_iff hb).mp hlate.2
      constructor
      · simp [add, hrecord, Arrival.leads, hn.reference_eq]
      · simpa [add, hrecord] using hn.synced
      · simpa [add, hrecord, Arrival.accepted, hnumber] using hn.tracks.late hb (back_eq hb)
      · simpa [add, hrecord, Arrival.accepted, hnumber] using List.Nodup.concat hnew hn.once
    · exact hkept hrecord rfl rfl

theorem Numbering.Started.foldl (hn : n.Started p) (sequences : List UInt32) :
    ∃ p', (sequences.foldl Numbering.add n).Started p' := by
  induction sequences generalizing n p with
  | nil => exact ⟨p, hn⟩
  | cons s rest ih =>
    cases h : Serial.ahead32 s n.record.newest with
    | true => exact ih (hn.add_newer h)
    | false => exact ih (hn.add_older h)

theorem Numbering.Started.exact (hn : n.Started p) : n.Exact where
  once := hn.once
  window q hq b hb := by
    obtain rfl := Option.some.inj (hn.reference_eq.symm.trans hq)
    rw [← hn.tracks.seen_iff b hb, Window.has_eq_testBit]
    have hnewest := hn.tracks.newest_eq
    have hbit : ((p - b) % 32).toNat = (n.record.newest - UInt32.ofNat b).toNat % 32 := by
      rw [Window.toNat_back _ hb]
      omega
    rw [hbit]
  older q hq s h := by
    obtain rfl := Option.some.inj (hn.reference_eq.symm.trans hq)
    rw [record_older hn.synced h]
    by_cases hwide : 32 ≤ (n.record.newest - s).toNat
    · simp [hwide]
    · simp only [hwide, if_false, hn.has_iff (Nat.not_le.mp hwide)]
      split <;> rfl

/-- Whatever sequences arrive, each number is taken in at most once, and after
every arrival the record is exact. -/
theorem taken_once (sequences : List UInt32) (h : sequences.head? ≠ some 0xFFFFFFFF) :
    (Numbering.ofList sequences).Exact := by
  cases sequences with
  | nil => exact ⟨List.nodup_nil, fun p hp => (nomatch hp), fun p hp => (nomatch hp)⟩
  | cons s rest =>
    have hs : s ≠ 0xFFFFFFFF := fun e => h (e ▸ rfl)
    obtain ⟨p, hp⟩ := (Numbering.started_first hs).foldl rest
    exact hp.exact

end

theorem taken_once_resynced :
    [10, 100, 60, 69, 68, 99, 100].head? ≠ some (0xFFFFFFFF : UInt32) ∧
      (Numbering.ofList [10, 100, 60, 69, 68, 99, 100]).Exact ∧
      (Numbering.ofList [10, 100, 60, 69, 68, 99, 100]).taken = [10, 100, 69, 99] :=
  ⟨by decide, taken_once _ (by decide), by decide⟩

/-- The packet before a first one with the highest sequence counts as seen. -/
theorem highest_first_not_exact :
    ¬ ∀ sequences : List UInt32, (Numbering.ofList sequences).Exact := by
  intro h
  have hlate := (h [0xFFFFFFFF]).older 0xFFFFFFFF rfl 0xFFFFFFFE (by decide)
  revert hlate
  decide

end Arrivals

end Courier
