import Courier.Proofs.Assembly.Group
import Courier.Proofs.Serial

/-!
# What taking in a message does

Ids tell payloads apart as long as their numbers are within 256 of the newest
one; `observe_spec` says that observing a newer id forgets exactly those that
fall behind. After that a message of a payload has one of four effects
(`accept_effect`). `accept_spec` says what these leave behind, whatever group is
opened, completed or makes way.
-/

namespace Courier.Assembly

open Courier.Group (Collects)

/-- Payloads that their ids tell apart when `top` is the newest. -/
def Recent (top number : Nat) : Prop := number ≤ top ∧ top < number + 256

section
variable {a : Assembly} {p : Payload} {m : Message} {g : Group} {id : UInt8} {top number u : Nat}

theorem Recent.eq_of_id (hu : Recent top u) (hn : Recent top number)
    (h : UInt8.ofNat u = UInt8.ofNat number) : u = number := by
  obtain ⟨hu, hu'⟩ := hu
  obtain ⟨hn, hn'⟩ := hn
  have hmod := congrArg UInt8.toNat h
  rw [UInt8.toNat_ofNat', UInt8.toNat_ofNat'] at hmod
  omega

-- ---------------------------------------------------------------------------
-- Observing an id
-- ---------------------------------------------------------------------------

theorem passes_iff (hu : Recent top u) (hlt : top < number) (hle : number ≤ top + 127) :
    passes (UInt8.ofNat top) (UInt8.ofNat number) (UInt8.ofNat u) = true ↔ u + 256 ≤ number := by
  obtain ⟨hu, hu'⟩ := hu
  simp only [passes, Bool.and_eq_true, bne_iff_ne, ne_eq, decide_eq_true_eq, UInt8.le_iff_toNat_le,
    ← UInt8.toNat_inj, UInt8.toNat_sub, UInt8.toNat_ofNat']
  omega

/-- Observing a newer id forgets the payloads whose ids are used again. -/
theorem observe_spec (hnewest : a.newest = some (UInt8.ofNat top)) (hle : number ≤ top + 127)
    (hge : top ≤ number + 127) :
    ∃ stays : UInt8 → Bool,
      (a.observe (UInt8.ofNat number)).newest = some (UInt8.ofNat (max top number)) ∧
        (a.observe (UInt8.ofNat number)).groups = a.groups.filter (stays ·.id) ∧
        (a.observe (UInt8.ofNat number)).delivered = a.delivered.filter stays ∧
        ∀ u, Recent top u → (stays (UInt8.ofNat u) = true ↔ Recent (max top number) u) := by
  have hahead := Serial.ahead8_iff hle hge
  simp only [observe, hnewest]
  by_cases hlt : top < number
  · rw [if_pos (hahead.mpr hlt)]
    refine ⟨fun x => !passes (UInt8.ofNat top) (UInt8.ofNat number) x, ?_, rfl, rfl, ?_⟩
    · rw [Nat.max_eq_right (by omega)]
    · intro u hu
      have hpasses := passes_iff hu hlt hle
      obtain ⟨hu, hu'⟩ := hu
      rw [Bool.not_eq_true', ← Bool.not_eq_true, hpasses, Recent, Nat.max_eq_right (by omega)]
      omega
  · rw [if_neg (mt hahead.mp hlt)]
    refine ⟨fun _ => true, ?_, ?_, ?_, ?_⟩
    · rw [hnewest, Nat.max_eq_left (by omega)]
    · exact (List.filter_eq_self.mpr fun _ _ => rfl).symm
    · exact (List.filter_eq_self.mpr fun _ _ => rfl).symm
    · intro u hu
      rw [Nat.max_eq_left (by omega)]
      exact ⟨fun _ => hu, fun _ => rfl⟩

theorem groups_observe (a : Assembly) (id : UInt8) : (a.observe id).groups ⊆ a.groups := by
  unfold observe
  split
  · exact List.Subset.refl _
  · split
    · exact List.filter_subset_self _
    · exact List.Subset.refl _

-- ---------------------------------------------------------------------------
-- Opening and storing a group
-- ---------------------------------------------------------------------------

def ids (a : Assembly) : List UInt8 := a.groups.map (·.id)

theorem eq_of_id (hnd : a.ids.Nodup) {h : Group} (hg : g ∈ a.groups) (hh : h ∈ a.groups)
    (hid : g.id = h.id) : g = h :=
  List.inj_on_of_nodup_map hnd hg hh hid

theorem find?_eq (hnd : a.ids.Nodup) (hg : g ∈ a.groups) : a.find? g.id = some g := by
  unfold find?
  obtain ⟨h, hfind⟩ : ∃ h, (a.groups.find? fun h => h.id == g.id) = some h := by
    rw [← Option.isSome_iff_exists, List.find?_isSome]
    exact ⟨g, hg, beq_self_eq_true _⟩
  have hid := List.find?_some hfind
  rw [beq_iff_eq] at hid
  rw [hfind, eq_of_id hnd hg (List.mem_of_find?_eq_some hfind) hid.symm]

theorem openGroup_spec (hnd : a.ids.Nodup) (id : UInt8) :
    (a.openGroup id).newest = a.newest ∧ (a.openGroup id).delivered = a.delivered ∧
      (a.openGroup id).ids.Nodup ∧
      ∃ g ∈ (a.openGroup id).groups, g.id = id ∧
        (g ∈ a.groups ∨ (g = ({ id } : Group) ∧ ∀ h ∈ a.groups, h.id ≠ id)) ∧
        ∀ h ∈ (a.openGroup id).groups, h = g ∨ h ∈ a.groups := by
  unfold openGroup
  split
  next hany =>
    obtain ⟨g, hg, hid⟩ := List.any_eq_true.mp hany
    exact ⟨rfl, rfl, hnd, g, hg, beq_iff_eq.mp hid, .inl hg, fun h hh => .inr hh⟩
  next hany =>
    have hnone : ∀ h ∈ a.groups, h.id ≠ id := by
      intro h hh hid
      exact hany (List.any_eq_true.mpr ⟨h, hh, beq_iff_eq.mpr hid⟩)
    have hadd (rest : List Group) (hsub : rest.Sublist a.groups) :
        ((rest ++ [({ id } : Group)]).map (·.id)).Nodup ∧
          ∀ h ∈ rest ++ [({ id } : Group)], h = ({ id } : Group) ∨ h ∈ a.groups := by
      refine ⟨?_, ?_⟩
      · rw [List.map_append]
        refine List.nodup_append.mpr ⟨(hsub.map _).nodup hnd, List.nodup_singleton _, ?_⟩
        rintro x hx y hy rfl
        obtain ⟨h, hh, hid⟩ := List.mem_map.mp hx
        exact hnone h (hsub.subset hh) (hid.trans (List.mem_singleton.mp hy))
      · intro h hh
        rcases List.mem_append.mp hh with hh | hh
        · exact .inr (hsub.subset hh)
        · exact .inl (List.mem_singleton.mp hh)
    split
    · obtain ⟨hnodup, hmem⟩ := hadd (a.groups.drop 1) (List.drop_sublist 1 _)
      exact ⟨rfl, rfl, hnodup, { id }, by simp, rfl, .inr ⟨rfl, hnone⟩, hmem⟩
    · obtain ⟨hnodup, hmem⟩ := hadd a.groups (List.Sublist.refl _)
      exact ⟨rfl, rfl, hnodup, { id }, by simp, rfl, .inr ⟨rfl, hnone⟩, hmem⟩

theorem openGroup_of_mem (hg : g ∈ a.groups) : a.openGroup g.id = a := by
  have hany : (a.groups.any fun h => h.id == g.id) = true :=
    List.any_eq_true.mpr ⟨g, hg, beq_self_eq_true _⟩
  rw [openGroup, if_pos hany]

theorem ids_setGroup (a : Assembly) (g : Group) : (a.setGroup g).ids = a.ids := by
  simp only [ids, setGroup, List.map_map]
  refine List.map_congr_left fun h _ => ?_
  simp only [Function.comp_apply]
  split
  next hid => exact (beq_iff_eq.mp hid).symm
  · rfl

theorem mem_setGroup {h : Group} (hh : h ∈ (a.setGroup g).groups) :
    h = g ∨ (h ∈ a.groups ∧ h.id ≠ g.id) := by
  obtain ⟨k, hk, rfl⟩ := List.mem_map.mp hh
  split
  · exact .inl rfl
  next hne => exact .inr ⟨hk, by simpa using hne⟩

theorem self_mem_setGroup {h : Group} (hh : h ∈ a.groups) (hid : h.id = g.id) :
    g ∈ (a.setGroup g).groups :=
  List.mem_map.mpr ⟨h, hh, by rw [if_pos (beq_iff_eq.mpr hid)]⟩

-- ---------------------------------------------------------------------------
-- Taking in a message of a payload
-- ---------------------------------------------------------------------------

/-- What message `m` of payload `number` does to groups and to the payloads
remembered, and what it returns. -/
structure Accepted (a after : Assembly) (p : Payload) (number : Nat) (m : Message)
    (d? : Option Delivery) : Prop where
  newest_eq : after.newest = a.newest
  nodup : after.ids.Nodup
  groups :
    ∀ g ∈ after.groups, g ∈ a.groups ∨ (g.isComplete = false ∧ ∃ held, Collects g p number held)
  stored : d? = none → (m.critical = true → m.fragment ∉ a.delivered) →
    ∃ g ∈ after.groups, g.id = m.fragment ∧ g.Has m ∧
      ∀ h ∈ a.groups, h.id = m.fragment → ∀ m', h.Has m' → g.Has m'
  delivery_eq : ∀ d, d? = some d →
    d = p.delivery number ∧ (m.critical = true → m.fragment ∉ a.delivered)
  delivered_eq : after.delivered =
    if d?.isSome = true ∧ p.critical = true then m.fragment :: a.delivered.filter (· != m.fragment)
    else a.delivered

@[simp] theorem newest_complete (a : Assembly) (d : Delivery) :
    (a.complete d).newest = a.newest := by
  unfold complete
  split
  · rfl
  · rfl

@[simp] theorem groups_complete (a : Assembly) (d : Delivery) :
    (a.complete d).groups = a.groups := by
  unfold complete
  split
  · rfl
  · rfl

theorem delivered_complete (a : Assembly) (d : Delivery) : (a.complete d).delivered =
    if d.critical = true then
      d.fragment :: a.delivered.filter (· != d.fragment)
    else a.delivered := by
  unfold complete
  split
  · rfl
  · rfl

/-- What is known about the groups before a message of payload `number` is taken in. -/
structure Ready (a : Assembly) (p : Payload) (number : Nat) : Prop where
  nodup : a.ids.Nodup
  groups : ∀ g ∈ a.groups, g.id = UInt8.ofNat number →
    g.isComplete = false ∧ ∃ held, Collects g p number held

/-- The effects that message `m` of payload `number` can have. -/
inductive Effect (a : Assembly) (p : Payload) (number : Nat) (m : Message) :
    Option Delivery × Assembly → Prop
  | resent (hc : m.critical = true) (hmem : m.fragment ∈ a.delivered) :
    Effect a p number m (none, { a with duplicates := a.duplicates + 1 })
  | whole (hnew : m.critical = true → m.fragment ∉ a.delivered)
      (hshort : p.data.length ≤ Message.maxData)
      (hm : m = p.whole number) :
    Effect a p number m (some (p.delivery number), a.complete (p.delivery number))
  | repeated (hnew : m.critical = true → m.fragment ∉ a.delivered) {g : Group} {held : List Nat}
      (hg : g ∈ a.groups) (hcollects : Collects g p number held) (hhas : g.Has m) :
    Effect a p number m (none, { a with duplicates := a.duplicates + 1 })
  | update (hnew : m.critical = true → m.fragment ∉ a.delivered) {old g : Group} {held : List Nat}
      (hopen : (a.openGroup m.fragment).find? m.fragment = some old)
      (hcollects : Collects g p number held)
      (hhas : ∀ m', g.Has m' ↔ m'.order = m.order ∨ old.Has m') :
    Effect a p number m ((a.openGroup m.fragment).update g)

theorem Ready.openGroup (h : a.Ready p number) (hlong : Message.maxData < p.data.length) :
    ∃ g held, (a.openGroup (UInt8.ofNat number)).find? (UInt8.ofNat number) = some g ∧
      Collects g p number held ∧ (g ∈ a.groups ∨ held = []) := by
  obtain ⟨-, -, hnodup, g, hg, hid, hold, -⟩ := openGroup_spec h.nodup (UInt8.ofNat number)
  have hfind := find?_eq hnodup hg
  rw [hid] at hfind
  rcases hold with hold | ⟨rfl, -⟩
  · obtain ⟨-, held, hcollects⟩ := h.groups g hold hid
    exact ⟨g, held, hfind, hcollects, .inl hold⟩
  · exact ⟨_, [], hfind, Group.collects_fresh hlong, .inr rfl⟩

theorem Ready.announcement (h : a.Ready p number) (hp : p.Sendable)
    (hlong : Message.maxData < p.data.length)
    (hnew : p.critical = true → UInt8.ofNat number ∉ a.delivered) :
    Effect a p number (p.announcement number) (a.acceptAnnouncement (p.announcement number)) := by
  obtain ⟨g, held, hfind, hcollects, -⟩ := h.openGroup hlong
  have hle := hp.length_le hlong
  have htoNat : (UInt32.ofNat p.data.length).toNat = p.data.length := by
    refine UInt32.toNat_ofNat_of_lt' ?_
    show p.data.length < 2 ^ 32
    simp only [maxSize, Outbox.capacity, Message.maxData] at hle
    omega
  have haccept : a.acceptAnnouncement (p.announcement number) =
      (a.openGroup (UInt8.ofNat number)).update (g.announce p.data.length p.critical) := by
    simp only [acceptAnnouncement, Payload.announcement, Announcement.decode_encode, htoNat,
      if_neg (Nat.not_lt.mpr hle), hfind, Option.getD_some]
  rw [haccept]
  exact .update hnew hfind hcollects.announce.1 fun _ => hcollects.has_announce

theorem Ready.part (h : a.Ready p number) (hp : p.Sendable)
    (hlong : Message.maxData < p.data.length)
    (hnew : p.critical = true → UInt8.ofNat number ∉ a.delivered) {i : Nat} (hi : i < p.count)
    (horder : (p.part number i).order ≠ 0) :
    Effect a p number (p.part number i) (a.acceptPart (p.part number i)) := by
  obtain ⟨g, held, hfind, hcollects, hold⟩ := h.openGroup hlong
  have hhas := hcollects.hasPart_iff hp hi
  by_cases hmem : i ∈ held
  · have hg : g ∈ a.groups := by
      rcases hold with hold | rfl
      · exact hold
      · cases hmem
    have hsame := openGroup_of_mem hg
    rw [hcollects.id_eq] at hsame
    have haccept :
        a.acceptPart (p.part number i) = (none, { a with duplicates := a.duplicates + 1 }) := by
      rw [hsame] at hfind
      simp only [acceptPart, Payload.part, hsame, hfind, Option.getD_some, hhas.mpr hmem, if_true]
    rw [haccept]
    exact .repeated hnew hg hcollects ((hcollects.has_part hp hi).mpr hmem)
  · have haccept : a.acceptPart (p.part number i) =
        (a.openGroup (UInt8.ofNat number)).update (g.addPart (p.part number i)) := by
      simp only [acceptPart, Payload.part, hfind, Option.getD_some, mt hhas.mp hmem,
        Bool.false_eq_true, if_false]
    rw [haccept]
    exact .update hnew hfind (hcollects.addPart hp hi hmem) fun _ => Group.has_addPart horder

/-- All that a message of a sendable payload can do once its id was observed. -/
theorem accept_effect (a : Assembly) (hp : p.Sendable) (hm : m ∈ p.pieces number)
    (h : (a.observe m.fragment).Ready p number) :
    Effect (a.observe m.fragment) p number m (a.accept m) := by
  generalize ha : a.observe m.fragment = b at h
  simp only [accept, ha]
  by_cases hseen : m.critical = true ∧ m.fragment ∈ b.delivered
  · have hif : (m.critical && b.delivered.contains m.fragment) = true := by simpa using hseen
    rw [if_pos hif]
    exact .resent hseen.1 hseen.2
  · have hif : ¬ (m.critical && b.delivered.contains m.fragment) = true := by simpa using hseen
    rw [if_neg hif]
    have hnew : m.critical = true → m.fragment ∉ b.delivered := fun hc hd => hseen ⟨hc, hd⟩
    rcases Payload.mem_pieces.mp hm with ⟨hshort, rfl⟩ | ⟨hlong, rfl | ⟨i, hi, rfl⟩⟩
    · have hkind : (p.whole number).kind ≠ .announcement := hp.kind_ne
      rw [if_neg (by simp [Payload.whole]), if_neg (by simpa using hkind)]
      exact .whole hnew hshort rfl
    · exact h.announcement hp hlong hnew
    · have horder : (p.part number i).order ≠ 0 := by
        intro hzero
        have := congrArg UInt8.toNat hzero
        simp only [Payload.part, hp.toNat_order hi] at this
        cases this
      rw [if_pos (by simpa using horder)]
      exact h.part hp hlong hnew hi horder

theorem Accepted.of_update (hnd : a.ids.Nodup) (hp : p.Sendable)
    (hid : m.fragment = UInt8.ofNat number) (hnew : m.critical = true → m.fragment ∉ a.delivered)
    {old : Group} {held : List Nat} (hopen : (a.openGroup m.fragment).find? m.fragment = some old)
    (hg : Collects g p number held) (hhas : ∀ m', g.Has m' ↔ m'.order = m.order ∨ old.Has m') :
    Accepted a ((a.openGroup m.fragment).update g).2 p number m
      ((a.openGroup m.fragment).update g).1 := by
  obtain ⟨hnewest, hdelivered, hnodup, k, hk, hkid, hkold, hkonly⟩ := openGroup_spec hnd m.fragment
  have hgid : g.id = m.fragment := hg.id_eq.trans hid.symm
  have hfind := find?_eq hnodup hk
  rw [hkid, hopen] at hfind
  obtain rfl := Option.some.inj hfind
  unfold Assembly.update
  split
  next hcomplete =>
    have hdelivery := hg.delivery_eq hp hcomplete
    refine ⟨?_, ?_, ?_, fun hd => absurd hd (Option.some_ne_none _), ?_, ?_⟩
    · rw [newest_complete]
      exact hnewest
    · rw [ids, groups_complete]
      exact (List.filter_sublist.map _).nodup hnodup
    · intro k hk
      rw [groups_complete] at hk
      obtain ⟨hk, hkid'⟩ := List.mem_filter.mp hk
      rw [bne_iff_ne, hgid, ← hkid] at hkid'
      rcases hkonly k hk with rfl | hk
      · exact absurd rfl hkid'
      · exact .inl hk
    · rintro d hd
      cases hd
      exact ⟨hdelivery, hnew⟩
    · rw [delivered_complete, hdelivery]
      simp only [Option.isSome_some, true_and, Payload.delivery, ← hid, hdelivered]
  next hincomplete =>
    have hincomplete : g.isComplete = false := by simpa using hincomplete
    refine ⟨hnewest, ?_, ?_, ?_, fun d hd => absurd hd (Option.not_mem_none d), ?_⟩
    · rw [ids_setGroup]
      exact hnodup
    · intro k hk
      rcases mem_setGroup hk with rfl | ⟨hk, hne⟩
      · exact .inr ⟨hincomplete, held, hg⟩
      · rcases hkonly k hk with rfl | hk
        · exact absurd (hkid.trans hgid.symm) hne
        · exact .inl hk
    · intro _ _
      refine ⟨g, self_mem_setGroup hk (hkid.trans hgid.symm), hgid, (hhas m).mpr (.inl rfl), ?_⟩
      intro k' hk' hkid' m' hm'
      rcases hkold with hkold | ⟨-, hnone⟩
      · rw [eq_of_id hnd hk' hkold (hkid'.trans hkid.symm)] at hm'
        exact (hhas m').mpr (.inr hm')
      · exact absurd hkid' (hnone k' hk')
    · exact hdelivered

/-- What a message of a sendable payload leaves behind once its id was observed. -/
theorem accept_spec (a : Assembly) (hp : p.Sendable) (hm : m ∈ p.pieces number)
    (h : (a.observe m.fragment).Ready p number) :
    Accepted (a.observe m.fragment) (a.accept m).2 p number m (a.accept m).1 := by
  have hfragment := Payload.fragment_of_mem hm
  have heffect := a.accept_effect hp hm h
  generalize a.observe m.fragment = b at h heffect
  generalize a.accept m = result at heffect
  cases heffect with
  | resent hc hmem =>
    exact ⟨rfl, h.nodup, fun k hk => .inl hk, fun _ hnew => absurd hmem (hnew hc),
      fun d hd => absurd hd (Option.not_mem_none d), rfl⟩
  | whole hnew hshort hm =>
    refine ⟨newest_complete _ _, ?_, ?_, fun hd => absurd hd (Option.some_ne_none _), ?_, ?_⟩
    · rw [ids, groups_complete]
      exact h.nodup
    · intro k hk
      rw [groups_complete] at hk
      exact .inl hk
    · rintro d hd
      cases hd
      exact ⟨rfl, hnew⟩
    · simp [delivered_complete, hfragment, Payload.delivery]
  | @repeated hnew g held hg hcollects hhas =>
    refine ⟨rfl, h.nodup, fun k hk => .inl hk, ?_, fun d hd => absurd hd (Option.not_mem_none d),
      rfl⟩
    intro _ _
    refine ⟨g, hg, hcollects.id_eq.trans hfragment.symm, hhas, ?_⟩
    intro k hk hkid m' hm'
    rwa [eq_of_id h.nodup hk hg (hkid.trans (hfragment.trans hcollects.id_eq.symm))] at hm'
  | update hnew hopen hcollects hhas =>
    exact .of_update h.nodup hp hfragment hnew hopen hcollects hhas

end

end Courier.Assembly
