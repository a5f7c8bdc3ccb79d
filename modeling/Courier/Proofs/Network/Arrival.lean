import Mathlib.Data.List.TakeWhile
import Courier.Proofs.Network

/-!
# Leaving in order and arriving

Datagrams on their way wait in the order of release, and those released together
in the order of sending. A release takes all that are due (`lt_of_mem_release`)
and appends to the inbox of an address what was sent to it (`inbox?_releaseDue`).
-/

namespace Courier

namespace InTransit

def datagram (d : InTransit) : Datagram := { source := d.source, bytes := d.bytes }

theorem before_iff {x y : InTransit} :
    x.before y = true ↔ x.release < y.release ∨ (x.release = y.release ∧ x.order < y.order) := by
  simp [before]

theorem release_le_of_before {x y : InTransit} (h : x.before y = true) : x.release ≤ y.release := by
  rcases before_iff.mp h with h | h
  · exact Nat.le_of_lt h
  · exact Nat.le_of_eq h.1

theorem before_trans {x y z : InTransit} (hxy : x.before y = true) (hyz : y.before z = true) :
    x.before z = true := by
  simp only [before_iff, Time] at hxy hyz ⊢
  omega

end InTransit

namespace Transit

theorem perm_insert (d : InTransit) (ds : List InTransit) : (insert d ds).Perm (d :: ds) := by
  induction ds with
  | nil => exact .refl _
  | cons e rest ih =>
    rw [insert]
    split
    · exact .refl _
    · exact (ih.cons e).trans (.swap ..)

theorem pairwise_insert {d : InTransit} {ds : List InTransit} (h : ds.Pairwise (·.before ·))
    (hlatest : ∀ e ∈ ds, e.order < d.order) : (insert d ds).Pairwise (·.before ·) := by
  induction ds with
  | nil => exact List.pairwise_singleton ..
  | cons e rest ih =>
    obtain ⟨he, hrest⟩ := List.pairwise_cons.mp h
    rw [insert]
    split
    next hbefore =>
      refine List.pairwise_cons.mpr ⟨?_, h⟩
      intro x hx
      rcases List.mem_cons.mp hx with rfl | hx
      · exact hbefore
      · exact InTransit.before_trans hbefore (he x hx)
    next hbefore =>
      have horder := hlatest e List.mem_cons_self
      have hbehind : e.before d = true := by
        simp only [InTransit.before_iff, Time] at hbefore ⊢
        omega
      refine List.pairwise_cons.mpr ⟨?_, ih hrest fun x hx => hlatest x (List.mem_cons_of_mem _ hx)⟩
      intro x hx
      rcases List.mem_cons.mp ((perm_insert d rest).subset hx) with rfl | hx
      · exact hbehind
      · exact he x hx

theorem le_of_mem_release {t : Transit} {now : Time} {d : InTransit} (h : d ∈ (t.release now).1) :
    d.release ≤ now := by
  simpa using List.mem_takeWhile_imp h

theorem lt_of_mem_release {t : Transit} {now : Time} {d : InTransit}
    (h : t.waiting.Pairwise (·.before ·)) (hd : d ∈ (t.release now).2.waiting) :
    now < d.release := by
  rw [release] at hd
  generalize t.waiting = ds at h hd
  induction ds with
  | nil => cases hd
  | cons e rest ih =>
    obtain ⟨he, hrest⟩ := List.pairwise_cons.mp h
    rw [List.dropWhile_cons] at hd
    split at hd
    · exact ih hrest hd
    next hlate =>
      have hlate : now < e.release := by simpa using hlate
      rcases List.mem_cons.mp hd with rfl | hd
      · exact hlate
      · exact Nat.lt_of_lt_of_le hlate (InTransit.release_le_of_before (he d hd))

end Transit

namespace Network

section
variable {n : Network} {addr : Address} {inbox : List Datagram} {d : InTransit}

-- ---------------------------------------------------------------------------
-- Inboxes
-- ---------------------------------------------------------------------------

theorem inbox?_setInbox (n : Network) (addr : Address) (inbox : List Datagram) (x : Address) :
    (n.setInbox addr inbox).inbox? x = if x = addr then (n.inbox? addr).map fun _ => inbox
    else n.inbox? x := by
  simp only [inbox?, setInbox]
  induction n.inboxes with
  | nil => simp
  | cons entry rest ih =>
    obtain ⟨y, old⟩ := entry
    by_cases hy : y = addr
    · by_cases hx : x = addr
      · simp [hy, hx]
      · simpa [List.lookup_cons, hy, hx, beq_false_of_ne hx] using ih
    · by_cases hx : x = y
      · simp [hy, hx]
      · have hne : (addr == y) = false := beq_false_of_ne (Ne.symm hy)
        simpa [List.lookup_cons, hy, beq_false_of_ne hx, hne] using ih

theorem inbox?_arrive (n : Network) (d : InTransit) (addr : Address) :
    (n.arrive d).inbox? addr = (n.inbox? addr).map
    (· ++ if d.target = addr then [d.datagram] else []) := by
  cases hinbox : n.inbox? d.target with
  | none =>
    have hsame : (n.arrive d).inbox? addr = n.inbox? addr := by
      simp only [arrive, hinbox]
      rfl
    rw [hsame]
    split
    next htarget => rw [← htarget, hinbox, Option.map_none]
    · simp
  | some inbox =>
    have hstored :
        (n.arrive d).inbox? addr = (n.setInbox d.target (inbox ++ [d.datagram])).inbox? addr := by
      simp only [arrive, hinbox]
      rfl
    rw [hstored, inbox?_setInbox]
    by_cases htarget : d.target = addr
    · subst htarget
      simp [hinbox]
    · simp [htarget, Ne.symm htarget]

theorem inbox?_arriveAll (due : List InTransit) (n : Network) (addr : Address) :
    (due.foldl arrive n).inbox? addr =
      (n.inbox? addr).map (· ++ (due.filter (·.target == addr)).map (·.datagram)) := by
  induction due generalizing n with
  | nil => simp
  | cons d rest ih =>
    rw [List.foldl_cons, ih, inbox?_arrive, Option.map_map]
    by_cases htarget : d.target = addr
    · simp [htarget, Function.comp_def]
    · simp [htarget, Function.comp_def]

theorem arrive_spec (n : Network) (d : InTransit) :
    (n.arrive d).now = n.now ∧ (n.arrive d).transit = n.transit ∧
      (n.arrive d).delivered + (n.arrive d).dropped = n.delivered + n.dropped + 1 := by
  unfold arrive
  split
  · refine ⟨rfl, rfl, ?_⟩
    show n.delivered + 1 + n.dropped = _
    omega
  · exact ⟨rfl, rfl, rfl⟩

theorem arriveAll_spec (due : List InTransit) (n : Network) :
    (due.foldl arrive n).now = n.now ∧ (due.foldl arrive n).transit = n.transit ∧
      (due.foldl arrive n).delivered + (due.foldl arrive n).dropped =
        n.delivered + n.dropped + due.length := by
  induction due generalizing n with
  | nil => exact ⟨rfl, rfl, rfl⟩
  | cons d rest ih =>
    obtain ⟨hnow, htransit, hcount⟩ := n.arrive_spec d
    obtain ⟨hnow', htransit', hcount'⟩ := ih (n.arrive d)
    refine ⟨hnow'.trans hnow, htransit'.trans htransit, ?_⟩
    rw [List.foldl_cons, hcount', hcount, List.length_cons]
    omega

def due (n : Network) : List InTransit := (n.transit.release n.now).1

theorem releaseDue_spec (n : Network) :
    n.releaseDue.now = n.now ∧ n.releaseDue.transit = (n.transit.release n.now).2 ∧
      n.releaseDue.delivered + n.releaseDue.dropped = n.delivered + n.dropped + n.due.length :=
  arriveAll_spec n.due { n with transit := (n.transit.release n.now).2 }

theorem inbox?_releaseDue (n : Network) (addr : Address) :
    n.releaseDue.inbox? addr =
      (n.inbox? addr).map (· ++ (n.due.filter (·.target == addr)).map (·.datagram)) :=
  inbox?_arriveAll n.due { n with transit := (n.transit.release n.now).2 } addr

theorem isBound_releaseDue (n : Network) (addr : Address) :
    n.releaseDue.isBound addr = n.isBound addr := by
  rw [isBound, inbox?_releaseDue, Option.isSome_map, isBound]

-- ---------------------------------------------------------------------------
-- Sending
-- ---------------------------------------------------------------------------

/-- When a datagram that is sent now will be released; none if it is dropped at sending. -/
def releaseTime? (n : Network) (o : Offer) : Option Time :=
  if (n.screen o).1 then none
  else ((n.screen o).2.impair o.source).1.map fun latency => n.now + Interval.millis latency

end

end Network

end Courier
