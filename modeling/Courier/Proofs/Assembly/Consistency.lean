import Mathlib.Data.List.Range
import Courier.Proofs.Assembly.Catalogue
import Courier.Proofs.Assembly.Sources

/-!
# Whatever messages arrive, groups are few and add up

`Payload`s are not assumed here: orders, ids and contents are anything. A group
has what messages for its id brought and counts it correctly
(`Group.Consistent`), so what is returned from a complete group is its parts
from 1 on, and as long as announced (`Group.Consistent.of_isComplete`).
-/

namespace Courier

namespace Group

/-- The group has parts and a size that messages among `ms` brought for its id. -/
structure Consistent (g : Group) (ms : List Message) : Prop where
  received_eq : g.received = (g.parts.flatMap (·.2)).length
  sorted : g.parts.Pairwise (·.1 < ·.1)
  part_of :
    ∀ part ∈ g.parts, part.1 ≠ 0 ∧ ∃ m ∈ ms, m.fragment = g.id ∧ m.order = part.1 ∧ m.data = part.2
  total_of : ∀ total, g.total = some total → total ≤ Assembly.maxSize ∧
    ∃ m ∈ ms, m.fragment = g.id ∧ m.order = 0 ∧ m.kind = .announcement ∧
      ∃ n, Announcement.decode m.data = .ok n ∧ n.toNat = total

inductive Extended (old : Group) (m : Message) : Group → Prop
  | part (horder : m.order ≠ 0) (hnew : old.hasPart m.order = false) :
      Extended old m (old.addPart m)
  | announcement (horder : m.order = 0) (hkind : m.kind = .announcement) {total : UInt32}
      (hdecode : Announcement.decode m.data = .ok total) (hle : total.toNat ≤ Assembly.maxSize) :
      Extended old m (old.announce total.toNat m.critical)

section
variable {g old : Group} {m : Message} {ms ms' : List Message} {id : UInt8}

theorem consistent_fresh (id : UInt8) (ms : List Message) : ({ id } : Group).Consistent ms where
  received_eq := rfl
  sorted := .nil
  part_of _ hpart := nomatch hpart
  total_of _ htotal := nomatch htotal

theorem Consistent.mono (h : g.Consistent ms) (hsub : ms ⊆ ms') : g.Consistent ms' where
  received_eq := h.received_eq
  sorted := h.sorted
  part_of part hpart := by
    obtain ⟨hne, m, hm, hbrought⟩ := h.part_of part hpart
    exact ⟨hne, m, hsub hm, hbrought⟩
  total_of total htotal := by
    obtain ⟨hle, m, hm, hbrought⟩ := h.total_of total htotal
    exact ⟨hle, m, hsub hm, hbrought⟩

theorem perm_insertPart (order : UInt8) (data : Bytes) (parts : List (UInt8 × Bytes)) :
    (insertPart order data parts).Perm ((order, data) :: parts) := by
  induction parts with
  | nil => exact .refl _
  | cons part rest ih =>
    rw [insertPart]
    split
    · exact .refl _
    · exact (ih.cons part).trans (.swap ..)

theorem pairwise_insertPart {order : UInt8} {data : Bytes} {parts : List (UInt8 × Bytes)}
    (h : parts.Pairwise (·.1 < ·.1)) (hnew : ∀ part ∈ parts, part.1 ≠ order) :
    (insertPart order data parts).Pairwise (·.1 < ·.1) := by
  induction parts with
  | nil => exact List.pairwise_singleton ..
  | cons part rest ih =>
    obtain ⟨hpart, hrest⟩ := List.pairwise_cons.mp h
    rw [insertPart]
    split
    next hlt =>
      refine List.pairwise_cons.mpr ⟨?_, h⟩
      intro x hx
      rcases List.mem_cons.mp hx with rfl | hx
      · exact hlt
      · exact UInt8.lt_trans hlt (hpart x hx)
    next hle =>
      have hlt : part.1 < order :=
        UInt8.lt_of_le_of_ne (UInt8.not_lt.mp hle) (hnew part List.mem_cons_self)
      refine List.pairwise_cons.mpr ⟨?_, ih hrest fun x hx => hnew x (List.mem_cons_of_mem _ hx)⟩
      intro x hx
      rcases List.mem_cons.mp ((perm_insertPart ..).subset hx) with rfl | hx
      · exact hlt
      · exact hpart x hx

theorem Consistent.addPart (h : g.Consistent ms) (hm : m ∈ ms) (hid : m.fragment = g.id)
    (horder : m.order ≠ 0) (hnew : g.hasPart m.order = false) : (g.addPart m).Consistent ms := by
  have hperm := perm_insertPart m.order m.data g.parts
  have hne : ∀ part ∈ g.parts, part.1 ≠ m.order := by simpa [hasPart] using hnew
  refine ⟨?_, pairwise_insertPart h.sorted hne, ?_, h.total_of⟩
  · show g.received + m.data.length = ((insertPart m.order m.data g.parts).flatMap (·.2)).length
    rw [(hperm.flatMap_right _).length_eq, List.flatMap_cons, List.length_append, h.received_eq,
      Nat.add_comm]
  · intro part hpart
    rcases List.mem_cons.mp (hperm.subset hpart) with rfl | hpart
    · exact ⟨horder, m, hm, hid, rfl, rfl⟩
    · exact h.part_of part hpart

theorem Consistent.announce {total : UInt32} (h : g.Consistent ms) (hm : m ∈ ms)
    (hid : m.fragment = g.id) (horder : m.order = 0) (hkind : m.kind = .announcement)
    (hdecode : Announcement.decode m.data = .ok total) (hle : total.toNat ≤ Assembly.maxSize) :
    (g.announce total.toNat m.critical).Consistent ms := by
  have htotal : ∀ t, some total.toNat = some t → t ≤ Assembly.maxSize ∧
      ∃ m ∈ ms, m.fragment = g.id ∧ m.order = 0 ∧ m.kind = .announcement ∧
        ∃ n, Announcement.decode m.data = .ok n ∧ n.toNat = t := by
    rintro t ⟨⟩
    exact ⟨hle, m, hm, hid, horder, hkind, total, hdecode, rfl⟩
  unfold Group.announce
  split
  -- another size was announced before
  · exact ⟨rfl, .nil, fun _ hpart => (List.not_mem_nil hpart).elim, htotal⟩
  · exact ⟨h.received_eq, h.sorted, h.part_of, htotal⟩

theorem Consistent.extended (h : old.Consistent ms) (hg : Extended old m g)
    (hid : m.fragment = old.id) : g.Consistent (ms ++ [m]) := by
  have h := h.mono (List.subset_append_left ms [m])
  have hm : m ∈ ms ++ [m] := List.mem_append_right _ List.mem_cons_self
  cases hg with
  | part horder hnew => exact h.addPart hm hid horder hnew
  | announcement horder hkind hdecode hle => exact h.announce hm hid horder hkind hdecode hle

theorem Extended.id_eq (h : Extended old m g) : g.id = old.id := by
  cases h with
  | part => rfl
  | announcement => exact Assembly.id_announce ..

theorem Consistent.length_parts_lt (h : g.Consistent ms) : g.parts.length < 256 := by
  have hnodup : (g.parts.map (·.1.toNat)).Nodup := by
    rw [List.Nodup, List.pairwise_map]
    exact h.sorted.imp fun hlt => Nat.ne_of_lt (UInt8.lt_iff_toNat_lt.mp hlt)
  have hsub : g.parts.map (·.1.toNat) ⊆ List.range' 1 255 := by
    intro k hk
    obtain ⟨part, hpart, rfl⟩ := List.mem_map.mp hk
    have hpos : part.1.toNat ≠ 0 := fun hzero => (h.part_of part hpart).1 (UInt8.toNat_inj.mp hzero)
    have hlt := part.1.toNat_lt
    rw [List.mem_range'_1]
    omega
  have hle := List.Nodup.length_le_of_subset hnodup hsub
  rw [List.length_map, List.length_range'] at hle
  omega

theorem Consistent.of_isComplete (h : g.Consistent ms) (hcomplete : g.isComplete = true) :
    g.parts.map (·.1.toNat) = List.range' 1 g.parts.length ∧ g.total = some g.delivery.data.length ∧
      g.delivery.data.length ≤ Assembly.maxSize := by
  simp only [isComplete, Bool.and_eq_true, beq_iff_eq] at hcomplete
  obtain ⟨htotal, horders⟩ := hcomplete
  rw [h.received_eq] at htotal
  refine ⟨?_, htotal, (h.total_of _ htotal).1⟩
  have hlt := h.length_parts_lt
  calc g.parts.map (·.1.toNat)
      = (g.parts.map (·.1)).map UInt8.toNat := by rw [List.map_map]; rfl
    _ = (List.range g.parts.length).map fun i => (UInt8.ofNat (i + 1)).toNat := by
        rw [horders, List.map_map]
        rfl
    _ = (List.range g.parts.length).map (1 + ·) := by
        refine List.map_congr_left fun i hi => ?_
        rw [List.mem_range] at hi
        rw [UInt8.toNat_ofNat_of_lt' (show i + 1 < 256 by omega), Nat.add_comm]
    _ = List.range' 1 g.parts.length := by rw [List.range'_eq_map_range]

end

end Group

namespace Assembly

open Courier.Group (Extended)

/-- There are few groups, one for each id, and they have what `ms` brought. -/
structure Consistent (a : Assembly) (ms : List Message) : Prop where
  length_le : a.groups.length ≤ maxGroups
  nodup : a.ids.Nodup
  groups : ∀ g ∈ a.groups, g.Consistent ms

/-- The group that a message is for. -/
def groupOf (a : Assembly) (m : Message) : Group := (a.find? m.fragment).getD { id := m.fragment }

inductive Outcome (a : Assembly) (m : Message) : Option Delivery × Assembly → Prop
  | whole (horder : m.order = 0) (hkind : m.kind ≠ .announcement) (d : Delivery) :
    Outcome a m (some d, a.complete d)
  | nothing {after : Assembly}
      (hgroups : after.groups = a.groups ∨ after.groups = (a.openGroup m.fragment).groups) :
    Outcome a m (none, after)
  | extended {g : Group} (hg : Extended (a.groupOf m) m g) :
      Outcome a m ((a.openGroup m.fragment).update g)

section
variable {a after : Assembly} {m : Message} {g : Group} {d : Delivery} {ms seen : List Message}
  {id : UInt8}

theorem groupOf_openGroup (a : Assembly) (m : Message) :
    (a.openGroup m.fragment).groupOf m = a.groupOf m := by
  rw [openGroup_eq]
  split
  · rfl
  next hnone =>
    have hnone := Option.not_isSome_iff_eq_none.mp hnone
    have hroom := find?_makeRoom hnone
    rw [groupOf, groupOf, hnone, find?, List.find?_append, ← find?, hroom]
    simp

theorem id_groupOf (a : Assembly) (m : Message) : (a.groupOf m).id = m.fragment := id_find? ..

theorem outcome_acceptPart (horder : m.order ≠ 0) : Outcome a m (a.acceptPart m) := by
  have hgroup :
      ((a.openGroup m.fragment).find? m.fragment).getD { id := m.fragment } = a.groupOf m :=
    groupOf_openGroup a m
  simp only [acceptPart, hgroup]
  split
  · exact .nothing (.inr rfl)
  next hnew => exact .extended (.part horder (Bool.not_eq_true _ ▸ hnew))

theorem outcome_acceptAnnouncement (horder : m.order = 0) (hkind : m.kind = .announcement) :
    Outcome a m (a.acceptAnnouncement m) := by
  have hgroup :
      ((a.openGroup m.fragment).find? m.fragment).getD { id := m.fragment } = a.groupOf m :=
    groupOf_openGroup a m
  simp only [acceptAnnouncement, hgroup]
  split
  · exact .nothing (.inl rfl)
  next total hdecode =>
    split
    · exact .nothing (.inl rfl)
    next hle => exact .extended (.announcement horder hkind hdecode (Nat.le_of_not_lt hle))

theorem outcome_accept (a : Assembly) (m : Message) :
    Outcome (a.observe m.fragment) m (a.accept m) := by
  simp only [accept]
  split
  · exact .nothing (.inl rfl)
  · split
    next horder => exact outcome_acceptPart (bne_iff_ne.mp horder)
    next horder =>
      have horder : m.order = 0 := by simpa using horder
      split
      next hkind => exact outcome_acceptAnnouncement horder (beq_iff_eq.mp hkind)
      next hkind => exact .whole horder (mt beq_iff_eq.mpr hkind) _

theorem Consistent.observe (h : a.Consistent ms) (id : UInt8) : (a.observe id).Consistent ms := by
  refine ⟨?_, nodup_observe h.nodup id, fun g hg => h.groups g (groups_observe a id hg)⟩
  have hlength := h.length_le
  unfold Assembly.observe
  split
  · exact hlength
  · split
    · exact Nat.le_trans (List.length_filter_le ..) hlength
    · exact hlength

theorem Consistent.openGroup (h : a.Consistent ms) (id : UInt8) :
    (a.openGroup id).Consistent ms := by
  obtain ⟨-, -, hnodup, g, -, -, hg, honly⟩ := openGroup_spec h.nodup id
  have hlength := h.length_le
  refine ⟨?_, hnodup, fun k hk => ?_⟩
  · unfold Assembly.openGroup
    split
    · exact hlength
    · split
      next hfull =>
        simp only [List.length_append, List.length_drop, List.length_singleton]
        simp only [maxGroups] at hfull hlength ⊢
        omega
      next hfree =>
        simp only [List.length_append, List.length_singleton]
        omega
  · rcases honly k hk with rfl | hk
    · rcases hg with hg | ⟨rfl, -⟩
      · exact h.groups _ hg
      · exact Group.consistent_fresh id ms
    · exact h.groups k hk

theorem Consistent.update (h : a.Consistent ms) (hg : g.Consistent ms) :
    (a.update g).2.Consistent ms := by
  refine ⟨?_, ?_, fun k hk => ?_⟩
  · unfold Assembly.update
    split
    · rw [groups_complete]
      exact Nat.le_trans (List.length_filter_le ..) h.length_le
    · simpa [setGroup] using h.length_le
  · unfold Assembly.update
    split
    · rw [ids, groups_complete]
      exact (List.filter_sublist.map _).nodup h.nodup
    · rw [ids_setGroup]
      exact h.nodup
  · rcases mem_update hk with ⟨hk, -⟩ | ⟨-, rfl⟩
    · exact h.groups k hk
    · exact hg

theorem Consistent.mono {ms' : List Message} (h : a.Consistent ms) (hsub : ms ⊆ ms') :
    a.Consistent ms' :=
  ⟨h.length_le, h.nodup, fun g hg => (h.groups g hg).mono hsub⟩

theorem Consistent.of_groups (h : a.Consistent ms) (hgroups : after.groups = a.groups) :
    after.Consistent ms := by
  refine ⟨?_, ?_, ?_⟩
  · exact hgroups ▸ h.length_le
  · rw [ids, hgroups]
    exact h.nodup
  · rw [hgroups]
    exact h.groups

theorem Consistent.groupOf (h : a.Consistent ms) (m : Message) : (a.groupOf m).Consistent ms := by
  cases hfind : a.find? m.fragment with
  | none =>
    rw [Assembly.groupOf, hfind]
    exact Group.consistent_fresh ..
  | some g =>
    rw [Assembly.groupOf, hfind]
    exact h.groups g (List.mem_of_find?_eq_some hfind)

theorem Consistent.accept (h : a.Consistent ms) (m : Message) :
    (a.accept m).2.Consistent (ms ++ [m]) := by
  have hobserve := h.observe m.fragment
  have houtcome := outcome_accept a m
  generalize a.observe m.fragment = b at hobserve houtcome
  generalize a.accept m = result at houtcome
  have hmore := hobserve.mono (List.subset_append_left ms [m])
  cases houtcome with
  | whole horder hkind d => exact hmore.of_groups (groups_complete b d)
  | nothing hgroups =>
    rcases hgroups with hgroups | hgroups
    · exact hmore.of_groups hgroups
    · exact (hmore.openGroup m.fragment).of_groups hgroups
  | extended hg =>
    exact (hmore.openGroup m.fragment).update
      ((hobserve.groupOf m).extended hg (id_groupOf b m).symm)

theorem consistent_nil : ({} : Assembly).Consistent [] :=
  ⟨Nat.zero_le _, .nil, fun _ hg => nomatch hg⟩

theorem consistent_acceptAll (ms : List Message) : (acceptAll {} ms).2.Consistent ms := by
  induction ms using List.reverseRecOn with
  | nil => exact consistent_nil
  | append_singleton ms m ih =>
    rw [acceptAll_concat]
    exact ih.accept m

/-- What is returned for a message that is no whole payload comes from the group it is for. -/
theorem Consistent.delivery (h : a.Consistent ms) (hd : (a.accept m).1 = some d)
    (hgroup : m.order ≠ 0 ∨ m.kind = .announcement) :
    ∃ g, Extended ((a.observe m.fragment).groupOf m) m g ∧ g.Consistent (ms ++ [m]) ∧
      g.isComplete = true ∧
      g.id = m.fragment ∧ d = g.delivery := by
  have hobserve := h.observe m.fragment
  have houtcome := outcome_accept a m
  generalize a.observe m.fragment = b at hobserve houtcome
  generalize a.accept m = result at houtcome hd
  cases houtcome with
  | whole horder hkind d =>
    rcases hgroup with hne | hannouncement
    · exact absurd horder hne
    · exact absurd hannouncement hkind
  | nothing hgroups => cases hd
  | @extended g hg =>
    have hid := id_groupOf b m
    refine ⟨g, hg, (hobserve.groupOf m).extended hg hid.symm, ?_, hg.id_eq.trans hid, ?_⟩
    · exact isComplete_of_update (Option.isSome_of_eq_some hd)
    · unfold Assembly.update at hd
      split at hd
      · exact (Option.some.inj hd).symm
      · cases hd

theorem Consistent.catalogue (h : a.Consistent ms) :
    a.catalogue.size ≤ maxGroups ∧ a.catalogue.order.Nodup ∧
      (∀ id, id ∈ a.catalogue.order ↔ (a.catalogue.groups id).isSome = true) ∧
      ∀ id g, a.catalogue.groups id = some g → g.id = id ∧ g.Consistent ms := by
  refine ⟨?_, h.nodup, fun id => isSome_find?_iff.symm, fun id g hg => ?_⟩
  · rw [size_catalogue h.nodup]
    exact h.length_le
  · exact ⟨id_eq_of_find? hg, h.groups g (List.mem_of_find?_eq_some hg)⟩

theorem Consistent.catalogue_acceptAll (h : a.Consistent seen) (ms : List Message) :
    a.catalogue.acceptAll ms = ((a.acceptAll ms).1, (a.acceptAll ms).2.catalogue) := by
  induction ms generalizing a seen with
  | nil => rfl
  | cons m rest ih =>
    simp only [Catalogue.acceptAll, acceptAll, ← catalogue_accept h.nodup, ih (h.accept m)]

/-- Whatever messages an assembly takes in from the start, it has at most eight
groups. Kept by id and in a queue of ids, the queue has the ids of the groups and
each of them once, and every group counts the bytes of its parts. When the next
message completes a group, the payload is what messages brought for the id as
parts 1, 2 and so on to the last one there is; it is as long as was announced,
and no longer than 2880. -/
theorem acceptAll_consistent (ms : List Message) :
    let a := (acceptAll {} ms).2
    let c := (Catalogue.acceptAll {} ms).2
    (acceptAll {} ms).1 = (Catalogue.acceptAll {} ms).1 ∧ a.catalogue = c ∧
      c.size ≤ 8 ∧ c.order.Nodup ∧ (∀ id, id ∈ c.order ↔ (c.groups id).isSome = true) ∧
      (∀ id g, c.groups id = some g → g.id = id ∧ g.Consistent ms) ∧
      ∀ m d, (a.accept m).1 = some d → (m.order ≠ 0 ∨ m.kind = .announcement) →
        ∃ g : Group, Extended (((c.observe m.fragment).groups m.fragment).getD { id := m.fragment })
          m g ∧
          g.Consistent (ms ++ [m]) ∧ g.id = m.fragment ∧ d.fragment = m.fragment ∧
          d.data = g.parts.flatMap (·.2) ∧ g.parts.map (·.1.toNat) = List.range' 1 g.parts.length ∧
          g.total = some d.data.length ∧ d.data.length ≤ 2880 := by
  have h := consistent_acceptAll ms
  obtain ⟨hsize, hnodup, horder, hgroups⟩ := h.catalogue
  have hrun : Catalogue.acceptAll {} ms = ((acceptAll {} ms).1, (acceptAll {} ms).2.catalogue) :=
    consistent_nil.catalogue_acceptAll ms
  rw [hrun]
  refine ⟨rfl, rfl, hsize, hnodup, horder, hgroups, fun m d hd hgroup => ?_⟩
  obtain ⟨g, hextended, hg, hcomplete, hid, rfl⟩ := h.delivery hd hgroup
  obtain ⟨hparts, htotal, hle⟩ := hg.of_isComplete hcomplete
  refine ⟨g, ?_, hg, hid, hid, rfl, hparts, htotal, hle⟩
  rw [← catalogue_observe h.nodup]
  exact hextended

theorem acceptAll_consistent_of_two_parts :
    let announcement : Message :=
      { kind := .announcement, critical := true, fragment := 5, order := 0,
        data := Announcement.encode 3 }
    let part (order : UInt8) (data : Bytes) : Message :=
      { kind := .data, critical := true, fragment := 5, order, data }
    ∃ g : Group, g.Consistent [part 2 [99], announcement, part 1 [97, 98]] ∧
      [97, 98, 99] = g.parts.flatMap (·.2) ∧
      g.parts.map (·.1.toNat) = List.range' 1 g.parts.length ∧
      g.total = some 3 := by
  intro announcement part
  obtain ⟨-, -, -, -, -, -, hnext⟩ := acceptAll_consistent [part 2 [99], announcement]
  obtain ⟨g, -, hg, -, -, hdata, hparts, htotal, -⟩ :=
    hnext (part 1 [97, 98]) { kind := .data, critical := true, fragment := 5, data := [97, 98, 99] }
      (by decide) (by decide)
  exact ⟨g, hg, hdata, hparts, htotal⟩

end

end Assembly

end Courier
