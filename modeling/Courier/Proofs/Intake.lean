import Mathlib.Data.List.Induction
import Courier.Proofs.Assembly.Sources

/-!
# Taking in messages of many payloads

An intake keeps the number of its payload beside every message taken in, beside
every payload returned and beside every group that had to make way. As long as
numbers stay within reach of each other, ids tell payloads apart: what is
returned was queued (`Sound.faithful`), a critical payload is returned once
(`Sound.once`), and one whose group was kept is returned as soon as none of its
messages is missing (`Sound.missing`).
-/

namespace Courier

/-- The groups that make way for the one of `m`. -/
def Assembly.evicted (a : Assembly) (m : Message) : List UInt8 :=
  (a.observe m.fragment).ids.filter fun id => id != m.fragment && !(a.accept m).2.ids.contains id

structure Intake where
  assembly : Assembly := {}
  /-- All messages taken in, with the numbers of their payloads. -/
  taken : List (Message × Nat) := []
  /-- All payloads returned, with the numbers of the messages that completed them. -/
  deliveries : List (Delivery × Nat) := []
  /-- The payloads whose groups made way. -/
  givenUp : List Nat := []

namespace Intake

open Assembly (Recent Accepted Traced)
open Courier.Group (Collects)

def numbers (s : Intake) : List Nat := s.taken.map (·.2)

def returned (s : Intake) : List Nat := s.deliveries.map (·.2)

/-- The newest payload with this id that a message was taken in of. -/
def holder (s : Intake) (id : UInt8) : Option Nat := (s.numbers.filter (UInt8.ofNat · == id)).max?

def take (s : Intake) (x : Message × Nat) : Intake :=
  { assembly := (s.assembly.accept x.1).2
    taken := s.taken ++ [x]
    deliveries := s.deliveries ++ (s.assembly.accept x.1).1.toList.map fun d => (d, x.2)
    givenUp := s.givenUp ++ (s.assembly.evicted x.1).filterMap s.holder }

def takeAll (xs : List (Message × Nat)) : Intake := xs.foldl take {}

/-- Each number is within 127 of the largest one before it. -/
def InReach (numbers : List Nat) : Prop :=
  ∀ k (_ : k < numbers.length), ∀ top ∈ (numbers.take k).max?,
    numbers[k] ≤ top + 127 ∧ top ≤ numbers[k] + 127

instance (numbers : List Nat) : Decidable (InReach numbers) :=
  inferInstanceAs (Decidable (∀ k (_ : k < numbers.length), ∀ top ∈ (numbers.take k).max?, _))

/-- What an intake knows about the payloads it takes messages of, when `top` is
the newest one and its assembly is `a`. -/
structure Sound (payloads : List Payload) (top : Nat) (s : Intake) (a : Assembly) : Prop where
  newest_eq : a.newest = some (UInt8.ofNat top)
  nodup : a.ids.Nodup
  taken_le : ∀ x ∈ s.taken, x.2 ≤ top
  returned_le : ∀ u ∈ s.returned, u ≤ top
  groups : ∀ g ∈ a.groups, g.isComplete = false ∧ ∃ u p held, payloads[u]? = some p ∧ Recent top u ∧
    Collects g p u held
  remembered : ∀ id ∈ a.delivered, ∃ u ∈ s.returned, id = UInt8.ofNat u ∧ Recent top u
  recalled : ∀ u ∈ s.returned, ∀ p, payloads[u]? = some p → p.critical = true → Recent top u →
    UInt8.ofNat u ∈ a.delivered
  faithful : ∀ x ∈ s.deliveries, ∃ p, payloads[x.2]? = some p ∧ x.1 = p.delivery x.2
  once : ∀ u p, payloads[u]? = some p → p.critical = true → s.returned.count u ≤ 1
  kept : ∀ u p, payloads[u]? = some p → u ∉ s.returned → u ∉ s.givenUp → Recent top u →
    ∀ m ∈ p.pieces u, (m, u) ∈ s.taken → ∃ g ∈ a.groups, g.id = UInt8.ofNat u ∧ g.Has m
  missing : ∀ u p, payloads[u]? = some p → u ∉ s.returned → u ∉ s.givenUp →
    ∃ m ∈ p.pieces u, (m, u) ∉ s.taken

section
variable {payloads : List Payload} {s : Intake} {p : Payload} {m : Message} {top n u : Nat}

theorem mem_returned_take : u ∈ (s.take (m, n)).returned ↔
    u ∈ s.returned ∨ ((s.assembly.accept m).1.isSome = true ∧ u = n) := by
  simp only [returned, take, List.map_append, List.mem_append]
  refine or_congr Iff.rfl ?_
  cases (s.assembly.accept m).1 with
  | none => simp
  | some d => simp

/-- Observing an id that is within reach forgets nothing that is still recent. -/
theorem Sound.observe (h : s.Sound payloads top s.assembly) (hle : n ≤ top + 127)
    (hge : top ≤ n + 127) : s.Sound payloads (max top n) (s.assembly.observe (UInt8.ofNat n)) := by
  obtain ⟨stays, hnewest, hgroups, hdelivered, hstays⟩ := Assembly.observe_spec h.newest_eq hle hge
  have hback {u : Nat} (hu : Recent (max top n) u) (hle : u ≤ top) : Recent top u := by
    obtain ⟨-, hu⟩ := hu
    exact ⟨hle, by omega⟩
  refine ⟨hnewest, ?_, ?_, ?_, ?_, ?_, ?_, h.faithful, h.once, ?_, h.missing⟩
  · rw [Assembly.ids, hgroups]
    exact (List.filter_sublist.map _).nodup h.nodup
  · intro x hx
    have := h.taken_le x hx
    omega
  · intro u hu
    have := h.returned_le u hu
    omega
  · intro g hg
    rw [hgroups] at hg
    obtain ⟨hg, hstay⟩ := List.mem_filter.mp hg
    obtain ⟨hincomplete, u, p, held, hp, hu, hcollects⟩ := h.groups g hg
    rw [hcollects.id_eq] at hstay
    exact ⟨hincomplete, u, p, held, hp, (hstays u hu).mp hstay, hcollects⟩
  · intro id hid
    rw [hdelivered] at hid
    obtain ⟨hid, hstay⟩ := List.mem_filter.mp hid
    obtain ⟨u, hreturned, rfl, hu⟩ := h.remembered id hid
    exact ⟨u, hreturned, rfl, (hstays u hu).mp hstay⟩
  · intro u hreturned p hp hc hu
    have hold := hback hu (h.returned_le u hreturned)
    rw [hdelivered]
    exact List.mem_filter.mpr ⟨h.recalled u hreturned p hp hc hold, (hstays u hold).mpr hu⟩
  · intro u p hp hreturned hgiven hu m hm htaken
    have hold := hback hu (h.taken_le _ htaken)
    obtain ⟨g, hg, hid, hhas⟩ := h.kept u p hp hreturned hgiven hold m hm htaken
    refine ⟨g, ?_, hid, hhas⟩
    rw [hgroups]
    exact List.mem_filter.mpr ⟨hg, by rw [hid]; exact (hstays u hold).mpr hu⟩

theorem sound_first (payloads : List Payload) (n : Nat) :
    ({} : Intake).Sound payloads n (({} : Assembly).observe (UInt8.ofNat n)) where
  newest_eq := rfl
  nodup := List.nodup_nil
  taken_le x hx := nomatch hx
  returned_le u hu := nomatch hu
  groups g hg := nomatch hg
  remembered id hid := nomatch hid
  recalled u hu := nomatch hu
  faithful x hx := nomatch hx
  once u p _ _ := Nat.zero_le 1
  kept u p _ _ _ _ m _ hm := nomatch hm
  missing u p _ _ _ := by
    obtain ⟨m, hm⟩ := p.exists_piece u
    exact ⟨m, hm, List.not_mem_nil⟩

-- ---------------------------------------------------------------------------
-- Taking in one message
-- ---------------------------------------------------------------------------

/-- Message `m` of payload `n` is taken in, when `top` is the newest payload. -/
structure Taking (payloads : List Payload) (top : Nat) (s : Intake) (m : Message) (n : Nat)
    (p : Payload) : Prop where
  payload_eq : payloads[n]? = some p
  sendable : p.Sendable
  mem : m ∈ p.pieces n
  recent : Recent top n
  sound : s.Sound payloads top (s.assembly.observe m.fragment)

theorem Taking.fragment_eq (h : Taking payloads top s m n p) : m.fragment = UInt8.ofNat n :=
  Payload.fragment_of_mem h.mem

theorem Taking.ready (h : Taking payloads top s m n p) :
    (s.assembly.observe m.fragment).Ready p n := by
  refine ⟨h.sound.nodup, ?_⟩
  intro g hg hid
  obtain ⟨hincomplete, u, q, held, hq, hu, hcollects⟩ := h.sound.groups g hg
  obtain rfl := hu.eq_of_id h.recent (hcollects.id_eq.symm.trans hid)
  rw [h.payload_eq] at hq
  obtain rfl := Option.some.inj hq
  exact ⟨hincomplete, held, hcollects⟩

theorem Taking.accepted (h : Taking payloads top s m n p) :
    Accepted (s.assembly.observe m.fragment) (s.assembly.accept m).2 p n m
      (s.assembly.accept m).1 :=
  s.assembly.accept_spec h.sendable h.mem h.ready

theorem Taking.traced (h : Taking payloads top s m n p) :
    Traced (s.assembly.observe m.fragment) (s.assembly.accept m).2 p n m (s.assembly.accept m).1 :=
  s.assembly.accept_traced h.sendable h.mem h.ready

theorem Taking.mem_returned (h : Taking payloads top s m n p)
    (hmem : m.fragment ∈ (s.assembly.observe m.fragment).delivered) : n ∈ s.returned := by
  obtain ⟨u, hu, hid, hrecent⟩ := h.sound.remembered _ hmem
  rwa [← hrecent.eq_of_id h.recent (hid.symm.trans h.fragment_eq)]

theorem Taking.notMem_returned (h : Taking payloads top s m n p) (hc : p.critical = true)
    (hsome : (s.assembly.accept m).1.isSome = true) : n ∉ s.returned := by
  intro hmem
  obtain ⟨d, hd⟩ := Option.isSome_iff_exists.mp hsome
  have hnot := (h.accepted.delivery_eq d hd).2 ((Payload.critical_of_mem h.mem).trans hc)
  rw [h.fragment_eq] at hnot
  exact hnot (h.fragment_eq ▸ h.sound.recalled n hmem p h.payload_eq hc h.recent)

theorem Taking.groups (h : Taking payloads top s m n p) {g : Group}
    (hg : g ∈ (s.assembly.accept m).2.groups) :
    g.isComplete = false ∧ ∃ u p held, payloads[u]? = some p ∧ Recent top u ∧
    Collects g p u held := by
  rcases h.accepted.groups g hg with hg | ⟨hincomplete, held, hcollects⟩
  · exact h.sound.groups g hg
  · exact ⟨hincomplete, n, p, held, h.payload_eq, h.recent, hcollects⟩

/-- The group of another payload stays, or that payload is given up. -/
theorem Taking.remains (h : Taking payloads top s m n p) (hne : u ≠ n) (hu : Recent top u)
    {m' : Message} (htaken : (m', u) ∈ s.taken) (hgiven : u ∉ (s.take (m, n)).givenUp) {g : Group}
    (hg : g ∈ (s.assembly.observe m.fragment).groups) (hid : g.id = UInt8.ofNat u) :
    g ∈ (s.assembly.accept m).2.groups := by
  have hother : g.id ≠ m.fragment := by
    rw [hid, h.fragment_eq]
    exact fun e => hne (hu.eq_of_id h.recent e)
  by_cases hstays : g.id ∈ (s.assembly.accept m).2.ids
  · obtain ⟨k, hk, hkid⟩ := List.mem_map.mp hstays
    rcases h.accepted.groups k hk with hold | ⟨-, held, hcollects⟩
    · rwa [← Assembly.eq_of_id h.sound.nodup hold hg hkid]
    · exact absurd (hkid.symm.trans (hcollects.id_eq.trans h.fragment_eq.symm)) hother
  · refine absurd (List.mem_append_right _ ?_) hgiven
    refine List.mem_filterMap.mpr ⟨g.id, ?_, ?_⟩
    · refine List.mem_filter.mpr ⟨List.mem_map.mpr ⟨g, hg, rfl⟩, ?_⟩
      simp only [Bool.and_eq_true, bne_iff_ne, ne_eq, Bool.not_eq_true', ← Bool.not_eq_true,
        List.contains_iff_mem]
      exact ⟨hother, hstays⟩
    · -- no newer payload with this id can have been seen
      refine List.max?_eq_some_iff.mpr ⟨?_, ?_⟩
      · rw [hid]
        exact List.mem_filter.mpr ⟨List.mem_map.mpr ⟨_, htaken, rfl⟩, beq_self_eq_true _⟩
      · intro v hv
        obtain ⟨hv, hvid⟩ := List.mem_filter.mp hv
        obtain ⟨x, hx, rfl⟩ := List.mem_map.mp hv
        have hle := h.sound.taken_le x hx
        obtain ⟨hu, hu'⟩ := hu
        have hmod := congrArg UInt8.toNat ((beq_iff_eq.mp hvid).trans hid)
        rw [UInt8.toNat_ofNat', UInt8.toNat_ofNat'] at hmod
        omega

/-- The group of the payload itself has all that was taken in of it. -/
theorem Taking.stored (h : Taking payloads top s m n p) (hreturned : n ∉ (s.take (m, n)).returned)
    (hgiven : n ∉ (s.take (m, n)).givenUp) :
    ∃ g ∈ (s.assembly.accept m).2.groups, g.id = UInt8.ofNat n ∧
      ∀ m' ∈ p.pieces n, (m', n) ∈ (s.take (m, n)).taken → g.Has m' := by
  rw [mem_returned_take, not_or] at hreturned
  obtain ⟨hbefore, hnow⟩ := hreturned
  have hnone : (s.assembly.accept m).1 = none := by
    rw [← Option.not_isSome_iff_eq_none]
    exact fun hsome => hnow ⟨hsome, rfl⟩
  obtain ⟨g, hg, hid, hhas, hgrows⟩ :=
    h.accepted.stored hnone fun _ hmem => hbefore (h.mem_returned hmem)
  refine ⟨g, hg, hid.trans h.fragment_eq, ?_⟩
  intro m' hm' htaken
  rcases List.mem_append.mp htaken with htaken | htaken
  · obtain ⟨k, hk, hkid, hkhas⟩ := h.sound.kept n p h.payload_eq hbefore
      (fun hmem => hgiven (List.mem_append_left _ hmem)) h.recent m' hm' htaken
    exact hgrows k hk (hkid.trans h.fragment_eq.symm) m' hkhas
  · obtain rfl : m' = m := congrArg Prod.fst (List.mem_singleton.mp htaken)
    exact hhas

theorem Taking.kept (h : Taking payloads top s m n p) {q : Payload} (hq : payloads[u]? = some q)
    (hreturned : u ∉ (s.take (m, n)).returned) (hgiven : u ∉ (s.take (m, n)).givenUp)
    (hu : Recent top u) {m' : Message} (hm' : m' ∈ q.pieces u)
    (htaken : (m', u) ∈ (s.take (m, n)).taken) :
    ∃ g ∈ (s.assembly.accept m).2.groups, g.id = UInt8.ofNat u ∧ g.Has m' := by
  by_cases hne : u = n
  · subst hne
    rw [h.payload_eq] at hq
    obtain rfl := Option.some.inj hq
    obtain ⟨g, hg, hid, hhas⟩ := h.stored hreturned hgiven
    exact ⟨g, hg, hid, hhas m' hm' htaken⟩
  · have htaken : (m', u) ∈ s.taken := by
      rcases List.mem_append.mp htaken with htaken | htaken
      · exact htaken
      · exact absurd (congrArg Prod.snd (List.mem_singleton.mp htaken)) hne
    rw [mem_returned_take, not_or] at hreturned
    obtain ⟨g, hg, hid, hhas⟩ := h.sound.kept u q hq hreturned.1
      (fun hmem => hgiven (List.mem_append_left _ hmem)) hu m' hm' htaken
    exact ⟨g, h.remains hne hu htaken hgiven hg hid, hid, hhas⟩

theorem Taking.missing (h : Taking payloads top s m n p) {q : Payload} (hq : payloads[u]? = some q)
    (hreturned : u ∉ (s.take (m, n)).returned) (hgiven : u ∉ (s.take (m, n)).givenUp) :
    ∃ m' ∈ q.pieces u, (m', u) ∉ (s.take (m, n)).taken := by
  by_cases hne : u = n
  · subst hne
    rw [h.payload_eq] at hq
    obtain rfl := Option.some.inj hq
    obtain ⟨g, hg, hid, hhas⟩ := h.stored hreturned hgiven
    obtain ⟨hincomplete, v, q, held, hq, hv, hcollects⟩ := h.groups hg
    obtain rfl := hv.eq_of_id h.recent (hcollects.id_eq.symm.trans hid)
    rw [h.payload_eq] at hq
    obtain rfl := Option.some.inj hq
    obtain ⟨m', hm', hlacks⟩ := hcollects.exists_missing h.sendable hincomplete
    exact ⟨m', hm', fun htaken => hlacks (hhas m' hm' htaken)⟩
  · rw [mem_returned_take, not_or] at hreturned
    obtain ⟨m', hm', hnot⟩ := h.sound.missing u q hq hreturned.1
      fun hmem => hgiven (List.mem_append_left _ hmem)
    refine ⟨m', hm', ?_⟩
    intro htaken
    rcases List.mem_append.mp htaken with htaken | htaken
    · exact hnot htaken
    · exact hne (congrArg Prod.snd (List.mem_singleton.mp htaken))

theorem Taking.once (h : Taking payloads top s m n p) {q : Payload} (hq : payloads[u]? = some q)
    (hc : q.critical = true) : (s.take (m, n)).returned.count u ≤ 1 := by
  have hbefore := h.sound.once u q hq hc
  have happend : (s.take (m, n)).returned =
      s.returned ++ (s.assembly.accept m).1.toList.map fun _ => n := by
    simp only [returned, take, List.map_append, List.map_map]
    rfl
  rw [happend, List.count_append]
  cases hsome : (s.assembly.accept m).1 with
  | none => exact hbefore
  | some d =>
    by_cases hne : u = n
    · subst hne
      rw [h.payload_eq] at hq
      obtain rfl := Option.some.inj hq
      have hnot := h.notMem_returned hc (by rw [hsome]; rfl)
      rw [List.count_eq_zero_of_not_mem hnot]
      simp
    · have hzero : List.count u [n] = 0 := List.count_eq_zero_of_not_mem (by simpa using hne)
      exact (congrArg (s.returned.count u + ·) hzero).trans_le hbefore

theorem Taking.take (h : Taking payloads top s m n p) :
    (s.take (m, n)).Sound payloads top (s.take (m, n)).assembly := by
  have haccepted := h.accepted
  refine ⟨haccepted.newest_eq.trans h.sound.newest_eq, haccepted.nodup, ?_, ?_, fun g hg =>
      h.groups hg, ?_,
    ?_, ?_, fun u q hq hc => h.once hq hc, fun u q hq hr hg hu m' hm' ht =>
    h.kept hq hr hg hu hm' ht, fun u q hq hr hg => h.missing hq hr hg⟩
  · intro x hx
    rcases List.mem_append.mp hx with hx | hx
    · exact h.sound.taken_le x hx
    · rw [List.mem_singleton.mp hx]
      exact h.recent.1
  · intro u hu
    rcases mem_returned_take.mp hu with hu | ⟨-, rfl⟩
    · exact h.sound.returned_le u hu
    · exact h.recent.1
  · intro id hid
    have hold (hid : id ∈ (s.assembly.observe m.fragment).delivered) :
        ∃ u ∈ (s.take (m, n)).returned, id = UInt8.ofNat u ∧ Recent top u := by
      obtain ⟨u, hu, hid, hrecent⟩ := h.sound.remembered id hid
      exact ⟨u, mem_returned_take.mpr (.inl hu), hid, hrecent⟩
    change id ∈ (s.assembly.accept m).2.delivered at hid
    rw [haccepted.delivered_eq] at hid
    split at hid
    next hsome =>
      rcases List.mem_cons.mp hid with rfl | hid
      · exact ⟨n, mem_returned_take.mpr (.inr ⟨hsome.1, rfl⟩), h.fragment_eq, h.recent⟩
      · exact hold (List.mem_filter.mp hid).1
    · exact hold hid
  · intro u hu q hq hc hrecent
    show UInt8.ofNat u ∈ (s.assembly.accept m).2.delivered
    rw [haccepted.delivered_eq]
    rcases mem_returned_take.mp hu with hu | ⟨hsome, rfl⟩
    · have hold := h.sound.recalled u hu q hq hc hrecent
      split
      · by_cases hid : UInt8.ofNat u = m.fragment
        · rw [hid]
          exact List.mem_cons_self
        · exact List.mem_cons_of_mem _ (List.mem_filter.mpr ⟨hold, bne_iff_ne.mpr hid⟩)
      · exact hold
    · rw [h.payload_eq] at hq
      obtain rfl := Option.some.inj hq
      rw [if_pos ⟨hsome, hc⟩, ← h.fragment_eq]
      exact List.mem_cons_self
  · intro x hx
    rcases List.mem_append.mp hx with hx | hx
    · exact h.sound.faithful x hx
    · obtain ⟨d, hd, rfl⟩ := List.mem_map.mp hx
      exact ⟨p, h.payload_eq, (haccepted.delivery_eq d (Option.mem_toList.mp hd)).1⟩

-- ---------------------------------------------------------------------------
-- Taking in all messages of a run
-- ---------------------------------------------------------------------------

theorem takeAll_append (xs : List (Message × Nat)) (x : Message × Nat) :
    takeAll (xs ++ [x]) = (takeAll xs).take x := by
  rw [takeAll, List.foldl_append]
  rfl

theorem taken_takeAll (xs : List (Message × Nat)) : (takeAll xs).taken = xs := by
  induction xs using List.reverseRecOn with
  | nil => rfl
  | append_singleton xs x ih => rw [takeAll_append, take, ih]

theorem foldl_take (s : Intake) (xs : List (Message × Nat)) :
    (xs.foldl take s).assembly = (s.assembly.acceptAll (xs.map (·.1))).2 ∧
      (xs.foldl take s).deliveries.map (·.1) =
        s.deliveries.map (·.1) ++ (s.assembly.acceptAll (xs.map (·.1))).1 := by
  induction xs generalizing s with
  | nil => exact ⟨rfl, (List.append_nil _).symm⟩
  | cons x rest ih =>
    obtain ⟨hassembly, hdeliveries⟩ := ih (s.take x)
    refine ⟨hassembly, ?_⟩
    rw [List.foldl_cons, hdeliveries]
    simp only [take, List.map_append, List.map_map, List.map_cons, Assembly.acceptAll,
      List.append_assoc]
    congr 2
    exact List.map_id _

theorem InReach.append {numbers : List Nat} (h : InReach (numbers ++ [n])) :
    InReach numbers ∧ ∀ top, numbers.max? = some top → n ≤ top + 127 ∧ top ≤ n + 127 := by
  constructor
  · intro k hk top htop
    have := h k (by rw [List.length_append]; omega) top
    rw [List.take_append_of_le_length (by omega), List.getElem_append_left hk] at this
    exact this htop
  · intro top htop
    have := h numbers.length (by rw [List.length_append]; exact Nat.lt_succ_self _) top
    rw [List.take_left, List.getElem_concat_length rfl] at this
    exact this htop

theorem max?_append {numbers : List Nat} (h : numbers.max? = some top) :
    (numbers ++ [n]).max? = some (max top n) := by
  obtain ⟨hmem, hle⟩ := List.max?_eq_some_iff.mp h
  refine List.max?_eq_some_iff.mpr ⟨?_, ?_⟩
  · rcases Nat.le_total top n with hn | hn
    · rw [Nat.max_eq_right hn]
      exact List.mem_append_right _ (List.mem_singleton_self n)
    · rw [Nat.max_eq_left hn]
      exact List.mem_append_left _ hmem
  · intro k hk
    rcases List.mem_append.mp hk with hk | hk
    · have := hle k hk
      omega
    · rw [List.mem_singleton.mp hk]
      omega

theorem exists_taking (hsendable : ∀ p ∈ payloads, p.Sendable) {xs : List (Message × Nat)}
    (hbelongs : Payload.Belongs payloads (m, n)) (hreach : InReach ((xs ++ [(m, n)]).map (·.2)))
    (hxs : xs = [] ∨ ∃ top, (xs.map (·.2)).max? = some top ∧
      (takeAll xs).Sound payloads top (takeAll xs).assembly) :
    ∃ top p, ((xs ++ [(m, n)]).map (·.2)).max? = some top ∧
    Taking payloads top (takeAll xs) m n p := by
  obtain ⟨p, hp, hm⟩ := hbelongs
  have hfragment := Payload.fragment_of_mem hm
  rw [List.map_append] at hreach ⊢
  rcases hxs with rfl | ⟨top, htop, hsound⟩
  · refine ⟨n, p, rfl, hp, hsendable p (List.mem_of_getElem? hp), hm, ⟨Nat.le_refl n, by omega⟩, ?_⟩
    rw [hfragment]
    exact sound_first payloads n
  · obtain ⟨hle, hge⟩ : n ≤ top + 127 ∧ top ≤ n + 127 := hreach.append.2 top htop
    refine ⟨max top n, p, max?_append htop, hp, hsendable p (List.mem_of_getElem? hp), hm,
      ⟨by omega, by omega⟩, ?_⟩
    rw [hfragment]
    exact hsound.observe hle hge

theorem sound_takeAll (hsendable : ∀ p ∈ payloads, p.Sendable) {xs : List (Message × Nat)}
    (hcargo : ∀ x ∈ xs, Payload.Belongs payloads x) (hreach : InReach (xs.map (·.2))) :
    xs = [] ∨ ∃ top, (xs.map (·.2)).max? = some top ∧
      (takeAll xs).Sound payloads top (takeAll xs).assembly := by
  induction xs using List.reverseRecOn with
  | nil => exact .inl rfl
  | append_singleton xs x ih =>
    have hbefore : InReach (xs.map (·.2)) := by
      rw [List.map_append] at hreach
      exact hreach.append.1
    obtain ⟨top, p, htop, htaking⟩ := exists_taking hsendable (hcargo x (by simp)) hreach
      (ih (fun y hy => hcargo y (List.mem_append_left _ hy)) hbefore)
    rw [takeAll_append]
    exact .inr ⟨top, htop, htaking.take⟩

section
variable (hsendable : ∀ p ∈ payloads, p.Sendable) {xs : List (Message × Nat)}
  (hcargo : ∀ x ∈ xs, Payload.Belongs payloads x) (hreach : InReach (xs.map (·.2)))

include hsendable hcargo hreach

theorem takeAll_faithful : ∀ x ∈ (takeAll xs).deliveries,
    ∃ p, payloads[x.2]? = some p ∧ x.1 = p.delivery x.2 := by
  rcases sound_takeAll hsendable hcargo hreach with rfl | ⟨top, -, hsound⟩
  · exact fun x hx => nomatch hx
  · exact hsound.faithful

theorem takeAll_once (hp : payloads[u]? = some p) (hc : p.critical = true) :
    (takeAll xs).returned.count u ≤ 1 := by
  rcases sound_takeAll hsendable hcargo hreach with rfl | ⟨top, -, hsound⟩
  · exact Nat.zero_le 1
  · exact hsound.once u p hp hc

theorem mem_returned_takeAll (hp : payloads[u]? = some p) (hgiven : u ∉ (takeAll xs).givenUp)
    (hall : ∀ m ∈ p.pieces u, (m, u) ∈ xs) : u ∈ (takeAll xs).returned := by
  rcases sound_takeAll hsendable hcargo hreach with rfl | ⟨top, -, hsound⟩
  · obtain ⟨m, hm⟩ := p.exists_piece u
    exact nomatch hall m hm
  · by_contra hnot
    obtain ⟨m, hm, hmissing⟩ := hsound.missing u p hp hnot hgiven
    rw [taken_takeAll] at hmissing
    exact hmissing (hall m hm)

end

end

end Intake

end Courier
