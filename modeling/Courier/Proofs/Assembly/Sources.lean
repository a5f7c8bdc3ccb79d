import Courier.Proofs.Assembly.Accept

/-!
# Where the contents of groups come from

`Accepted` says that nothing taken in is lost. Conversely, a group has nothing
but what messages of its payload brought, a payload is returned with the last of
its messages, and while there is room no group makes way (`accept_traced`).
-/

namespace Courier.Assembly

open Courier.Group (Collects)

def Holds (a : Assembly) (id : UInt8) (m : Message) : Prop := ∃ g ∈ a.groups, g.id = id ∧ g.Has m

def HasRoom (a : Assembly) (id : UInt8) : Prop := a.groups.length < maxGroups ∨ id ∈ a.ids

/-- Where the groups come from that message `m` of payload `number` leaves behind. -/
structure Traced (a after : Assembly) (p : Payload) (number : Nat) (m : Message)
    (d? : Option Delivery) : Prop where
  source : ∀ g ∈ after.groups, (g ∈ a.groups ∧ g.id ≠ m.fragment) ∨
    (d? = none ∧ g.id = m.fragment ∧ ∀ m' ∈ p.pieces number, g.Has m' →
      m' = m ∨ a.Holds m.fragment m')
  filled : d?.isSome = true → ∀ m' ∈ p.pieces number, m' = m ∨ a.Holds m.fragment m'
  resent : m.critical = true → m.fragment ∈ a.delivered → after.groups = a.groups
  kept : a.HasRoom m.fragment → ∀ g ∈ a.groups, g.id ≠ m.fragment → g ∈ after.groups

section
variable {a : Assembly} {p : Payload} {m : Message} {g k : Group} {id : UInt8} {number : Nat}

theorem mem_openGroup (hroom : a.HasRoom id) (hk : k ∈ a.groups) : k ∈ (a.openGroup id).groups := by
  unfold openGroup
  split
  · exact hk
  next hany =>
    have hfew : ¬ maxGroups ≤ a.groups.length := by
      rcases hroom with hfew | hid
      · omega
      · obtain ⟨g, hg, hid⟩ := List.mem_map.mp hid
        exact (hany (List.any_eq_true.mpr ⟨g, hg, beq_iff_eq.mpr hid⟩)).elim
    rw [if_neg hfew]
    exact List.mem_append_left _ hk

theorem mem_update (hk : k ∈ (a.update g).2.groups) :
    (k ∈ a.groups ∧ k.id ≠ g.id) ∨ ((a.update g).1 = none ∧ k = g) := by
  unfold Assembly.update at hk ⊢
  split at hk
  next hcomplete =>
    left
    simpa using hk
  next hincomplete =>
    rw [if_neg hincomplete]
    rcases mem_setGroup hk with rfl | hk
    · exact .inr ⟨rfl, rfl⟩
    · exact .inl hk

theorem mem_update_of_ne (hk : k ∈ a.groups) (hne : k.id ≠ g.id) : k ∈ (a.update g).2.groups := by
  unfold Assembly.update
  split
  · simpa using ⟨hk, hne⟩
  · exact List.mem_map.mpr ⟨k, hk, by simp [hne]⟩

theorem isComplete_of_update (h : (a.update g).1.isSome = true) : g.isComplete = true := by
  unfold Assembly.update at h
  split at h
  next hcomplete => exact hcomplete
  · cases h

theorem Traced.unchanged : Traced a { a with duplicates := a.duplicates + 1 } p number m none where
  source g hg := by
    by_cases hid : g.id = m.fragment
    · exact .inr ⟨rfl, hid, fun m' _ hhas => .inr ⟨g, hg, hid, hhas⟩⟩
    · exact .inl ⟨hg, hid⟩
  filled hsome := nomatch hsome
  resent _ _ := rfl
  kept _ _ hg _ := hg

theorem Traced.whole (hready : a.Ready p number) (hid : m.fragment = UInt8.ofNat number)
    (hnew : m.critical = true → m.fragment ∉ a.delivered) (hshort : p.data.length ≤ Message.maxData)
    (hm : m = p.whole number) :
    Traced a (a.complete (p.delivery number)) p number m (some (p.delivery number)) where
  source g hg := by
    rw [groups_complete] at hg
    refine .inl ⟨hg, fun hsame => ?_⟩
    obtain ⟨-, held, hcollects⟩ := hready.groups g hg (hsame.trans hid)
    exact absurd hcollects.long (by omega)
  filled _ m' hm' := by
    rcases Payload.mem_pieces.mp hm' with ⟨-, rfl⟩ | ⟨hlong, -⟩
    · exact .inl hm.symm
    · omega
  resent hc hmem := absurd hmem (hnew hc)
  kept _ g hg _ := by rwa [groups_complete]

theorem Traced.of_update (hnd : a.ids.Nodup) (hp : p.Sendable) (hm : m ∈ p.pieces number)
    (hnew : m.critical = true → m.fragment ∉ a.delivered) {old : Group} {held : List Nat}
    (hopen : (a.openGroup m.fragment).find? m.fragment = some old)
    (hcollects : Collects g p number held)
    (hhas : ∀ m', g.Has m' ↔ m'.order = m.order ∨ old.Has m') :
    Traced a ((a.openGroup m.fragment).update g).2 p number m
      ((a.openGroup m.fragment).update g).1 := by
  obtain ⟨-, -, hnodup, k, hk, hkid, hkold, hkonly⟩ := openGroup_spec hnd m.fragment
  have hgid : g.id = m.fragment := hcollects.id_eq.trans (Payload.fragment_of_mem hm).symm
  have hfind := find?_eq hnodup hk
  rw [hkid, hopen] at hfind
  obtain rfl := Option.some.inj hfind
  -- the group had nothing that was not there before
  have hsource : ∀ m' ∈ p.pieces number, g.Has m' → m' = m ∨ a.Holds m.fragment m' := by
    intro m' hm' hgHas
    rcases (hhas m').mp hgHas with horder | hold
    · exact .inl (hp.eq_of_order hm' hm horder)
    · rcases hkold with hmem | ⟨rfl, -⟩
      · exact .inr ⟨old, hmem, hkid, hold⟩
      · exact absurd hold (Group.not_has_fresh _ _)
  refine ⟨?_, ?_, fun hc hmem => absurd hmem (hnew hc), ?_⟩
  · intro h hh
    rcases mem_update hh with ⟨hh, hne⟩ | ⟨hnone, rfl⟩
    · rw [hgid] at hne
      rcases hkonly h hh with rfl | hh
      · exact absurd hkid hne
      · exact .inl ⟨hh, hne⟩
    · exact .inr ⟨hnone, hgid, hsource⟩
  · intro hsome m' hm'
    exact hsource m' hm' ((hcollects.isComplete_iff_has hp).mp (isComplete_of_update hsome) m' hm')
  · intro hroom h hh hne
    exact mem_update_of_ne (mem_openGroup hroom hh) (hgid ▸ hne)

/-- What a message of a sendable payload leaves in the groups came from messages. -/
theorem accept_traced (a : Assembly) (hp : p.Sendable) (hm : m ∈ p.pieces number)
    (h : (a.observe m.fragment).Ready p number) :
    Traced (a.observe m.fragment) (a.accept m).2 p number m (a.accept m).1 := by
  have heffect := a.accept_effect hp hm h
  generalize a.observe m.fragment = b at h heffect
  generalize a.accept m = result at heffect
  cases heffect with
  | resent hc hmem => exact .unchanged
  | whole hnew hshort hwhole => exact .whole h (Payload.fragment_of_mem hm) hnew hshort hwhole
  | repeated hnew hg hcollects hhas => exact .unchanged
  | update hnew hopen hcollects hhas => exact .of_update h.nodup hp hm hnew hopen hcollects hhas

end

end Courier.Assembly
