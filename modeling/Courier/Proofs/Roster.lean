import Mathlib.Data.List.Forall2
import Mathlib.Data.List.Nodup
import Courier.Roster

/-!
# Looking up a peer

What `find?` gives after each change of a roster. No two channels of a roster
have the same peer, so removing one does not bring another one to light.
-/

namespace Courier.Roster

/-- No two channels have the same peer. -/
def Distinct (r : Roster) : Prop := (r.channels.map (·.peer)).Nodup

section
variable {r r' : Roster} {c : Channel} {peer : Address} {now : Time}

theorem peer_of_find? (h : r.find? peer = some c) : c.peer = peer := by
  simpa using List.find?_some h

theorem find?_set (r : Roster) (c : Channel) (peer : Address) :
    (r.set c).find? peer = if peer = c.peer then (r.find? peer).map fun _ => c
    else r.find? peer := by
  obtain ⟨capacity, timeout, channels⟩ := r
  simp only [find?, set]
  induction channels with
  | nil => simp
  | cons d rest ih =>
    rw [List.map_cons]
    by_cases hd : d.peer = c.peer
    · rw [if_pos (beq_iff_eq.mpr hd)]
      by_cases hp : peer = c.peer
      · rw [List.find?_cons_of_pos (by simp [hp]), List.find?_cons_of_pos (by simp [hd, hp]),
          if_pos hp]
        rfl
      · have hne : c.peer ≠ peer := fun e => hp e.symm
        rw [List.find?_cons_of_neg (by simp [hne]), List.find?_cons_of_neg (by simp [hd, hne])]
        exact ih
    · rw [if_neg (by simp [hd])]
      by_cases hp : d.peer = peer
      · have hne : peer ≠ c.peer := fun e => hd (hp.trans e)
        rw [List.find?_cons_of_pos (by simp [hp]), List.find?_cons_of_pos (by simp [hp]),
          if_neg hne]
      · rw [List.find?_cons_of_neg (by simp [hp]), List.find?_cons_of_neg (by simp [hp])]
        exact ih

theorem find?_forall₂ {R : Channel → Channel → Prop} (h : List.Forall₂ R r.channels r'.channels)
    (hpeer : ∀ c c', R c c' → c'.peer = c.peer) (peer : Address) :
    (r.find? peer = none ∧ r'.find? peer = none) ∨
      ∃ c c', r.find? peer = some c ∧ r'.find? peer = some c' ∧ R c c' := by
  obtain ⟨_, _, channels⟩ := r
  obtain ⟨_, _, channels'⟩ := r'
  simp only [find?] at h ⊢
  induction h with
  | nil => exact .inl ⟨rfl, rfl⟩
  | @cons c c' rest rest' hc _ ih =>
    rw [List.find?_cons, List.find?_cons, hpeer c c' hc]
    cases c.peer == peer with
    | true => exact .inr ⟨c, c', rfl, rfl, hc⟩
    | false => exact ih

theorem obtain?_cases (r : Roster) (peer : Address) (now : Time) :
    (∃ e, r.obtain? peer now = (.error e, r)) ∨
      (∃ c, r.find? peer = some c ∧ r.obtain? peer now = (.ok (c, false), r)) ∨
      (r.find? peer = none ∧ r.obtain? peer now =
        (.ok (.fresh peer now, true), { r with channels := r.channels ++ [.fresh peer now] })) := by
  simp only [obtain?]
  split
  next c hc => exact .inr (.inl ⟨c, hc, rfl⟩)
  next hnone =>
    split
    · exact .inl ⟨_, rfl⟩
    · exact .inr (.inr ⟨hnone, rfl⟩)

theorem find?_append_fresh (r : Roster) (peer other : Address) (now : Time) :
    ({ r with channels := r.channels ++ [.fresh peer now] } : Roster).find? other =
      (r.find? other).or (if other = peer then some (.fresh peer now) else none) := by
  simp only [find?, List.find?_append, List.find?_singleton]
  congr 1
  by_cases h : other = peer
  · simp [h, Channel.fresh]
  · have hne : ¬ peer = other := fun e => h e.symm
    simp [h, hne, Channel.fresh]

theorem Distinct.find?_expire (h : r.Distinct) (now : Time) (peer : Address) :
    (r.expire now).2.find? peer = (r.find? peer).filter fun c => !c.isTimedOut now r.timeout := by
  obtain ⟨capacity, timeout, channels⟩ := r
  simp only [Distinct] at h
  simp only [expire, find?, List.partition_eq_filter_filter]
  induction channels with
  | nil => rfl
  | cons c rest ih =>
    obtain ⟨hc, hrest⟩ := List.nodup_cons.mp h
    have hother : c.peer = peer → rest.find? (·.peer == peer) = none := by
      rintro rfl
      rw [List.find?_eq_none]
      intro d hd hsame
      exact hc (List.mem_map.mpr ⟨d, hd, by simpa using hsame⟩)
    have ih := ih hrest
    by_cases hp : c.peer = peer
    · rw [List.find?_cons_of_pos (by simp [hp])]
      cases ht : c.isTimedOut now timeout with
      | true =>
        rw [List.filter_cons_of_neg (by simp [ht]), ih, hother hp, Option.filter_some]
        simp [ht]
      | false =>
        rw [List.filter_cons_of_pos (by simp [ht]), List.find?_cons_of_pos (by simp [hp]),
          Option.filter_some]
        simp [ht]
    · rw [List.find?_cons_of_neg (by simp [hp]), ← ih, List.filter_cons]
      split
      · rw [List.find?_cons_of_neg (by simp [hp])]
      · rfl

theorem map_peer_eq {R : Channel → Channel → Prop} {cs cs' : List Channel}
    (hrel : List.Forall₂ R cs cs') (hpeer : ∀ c c', R c c' → c'.peer = c.peer) :
    cs'.map (·.peer) = cs.map (·.peer) := by
  induction hrel with
  | nil => rfl
  | cons hc _ ih => rw [List.map_cons, List.map_cons, hpeer _ _ hc, ih]

theorem Distinct.forall₂ {R : Channel → Channel → Prop} (h : r.Distinct)
    (hrel : List.Forall₂ R r.channels r'.channels) (hpeer : ∀ c c', R c c' → c'.peer = c.peer) :
    r'.Distinct := by
  rw [Distinct, map_peer_eq hrel hpeer]
  exact h

theorem Distinct.set (h : r.Distinct) (c : Channel) : (r.set c).Distinct := by
  refine h.forall₂ (R := fun d d' => d'.peer = d.peer) ?_ fun _ _ hd => hd
  simp only [Roster.set, List.forall₂_map_right_iff, List.forall₂_same]
  intro d _
  split
  next hd => exact (by simpa using hd : d.peer = c.peer).symm
  · rfl

theorem Distinct.append_fresh (h : r.Distinct) (hnone : r.find? peer = none) :
    ({ r with channels := r.channels ++ [.fresh peer now] } : Roster).Distinct := by
  rw [Distinct, List.map_append]
  refine List.nodup_append.mpr ⟨h, List.nodup_singleton _, ?_⟩
  rintro a ha b hb rfl
  obtain ⟨d, hd, rfl⟩ := List.mem_map.mp ha
  have hsame : d.peer = peer := List.mem_singleton.mp hb
  exact absurd (by simpa using hsame) (List.find?_eq_none.mp hnone d hd)

theorem Distinct.expire (h : r.Distinct) (now : Time) : (r.expire now).2.Distinct := by
  simp only [Roster.expire, List.partition_eq_filter_filter, Distinct]
  exact (List.filter_sublist.map _).nodup h

end

end Courier.Roster
