import Mathlib.Logic.Function.Basic
import Mathlib.Data.List.Nodup
import Courier.Proofs.Assembly.Resends

/-!
# Groups by id, and the order of their ids

An assembly keeps its groups in one list. A catalogue keeps them by id and has
the order in which they were opened in a queue of ids, so that whatever removes
a group has to remove its id as well. It does everything in step with an
assembly (`catalogue_accept`).
-/

namespace Courier

structure Catalogue where
  groups : UInt8 → Option Group := fun _ => none
  /-- The ids of the groups, oldest first. -/
  order : List UInt8 := []
  newest : Option UInt8 := none
  delivered : List UInt8 := []
  duplicates : Nat := 0
  discarded : Nat := 0

namespace Catalogue

def allIds : List UInt8 := (List.range 256).map UInt8.ofNat

def size (c : Catalogue) : Nat := allIds.countP fun id => (c.groups id).isSome

def store (c : Catalogue) (g : Group) : Catalogue :=
  { c with groups := Function.update c.groups g.id (some g) }

def erase (c : Catalogue) (id : UInt8) : Catalogue :=
  { c with groups := Function.update c.groups id none }

def forget (c : Catalogue) (id : UInt8) : Catalogue :=
  let c := { c with delivered := c.delivered.filter (· != id) }
  match c.groups id with
  | none => c
  | some _ => { c.erase id with order := c.order.filter (· != id), discarded := c.discarded + 1 }

def passed (newest id : UInt8) : List UInt8 :=
  (List.range (id - newest).toNat).map fun k => newest + UInt8.ofNat (k + 1)

def observe (c : Catalogue) (id : UInt8) : Catalogue :=
  match c.newest with
  | none => { c with newest := some id }
  | some newest =>
    if Serial.ahead8 id newest then
      { (passed newest id).foldl forget c with newest := some id }
    else c

def complete (c : Catalogue) (d : Delivery) : Catalogue :=
  if d.critical then
    { c with delivered := d.fragment :: c.delivered.filter (· != d.fragment) }
  else c

def makeRoom (c : Catalogue) : Catalogue :=
  if Assembly.maxGroups ≤ c.size then
    match c.order with
    | [] => c
    | oldest :: rest => { c.erase oldest with order := rest, discarded := c.discarded + 1 }
  else c

def openGroup (c : Catalogue) (id : UInt8) : Catalogue :=
  if (c.groups id).isSome then c
  else { c.makeRoom.store { id } with order := c.makeRoom.order ++ [id] }

def finish (c : Catalogue) (id : UInt8) : Option Delivery × Catalogue :=
  match c.groups id with
  | none => (none, c)
  | some g =>
    if g.isComplete then
      let c := { c.erase id with order := c.order.filter (· != id) }
      (some g.delivery, c.complete g.delivery)
    else (none, c)

def acceptAnnouncement (c : Catalogue) (m : Message) : Option Delivery × Catalogue :=
  match Announcement.decode m.data with
  | .error _ => (none, { c with discarded := c.discarded + 1 })
  | .ok total =>
    if Assembly.maxSize < total.toNat then (none, { c with discarded := c.discarded + 1 })
    else
      let c := c.openGroup m.fragment
      let group := (c.groups m.fragment).getD { id := m.fragment }
      (c.store (group.announce total.toNat m.critical)).finish m.fragment

def acceptPart (c : Catalogue) (m : Message) : Option Delivery × Catalogue :=
  let c := c.openGroup m.fragment
  let group := (c.groups m.fragment).getD { id := m.fragment }
  if group.hasPart m.order then (none, { c with duplicates := c.duplicates + 1 })
  else (c.store (group.addPart m)).finish m.fragment

def accept (c : Catalogue) (m : Message) : Option Delivery × Catalogue :=
  let c := c.observe m.fragment
  if m.critical && c.delivered.contains m.fragment then
    (none, { c with duplicates := c.duplicates + 1 })
  else if m.order != 0 then c.acceptPart m
  else if m.kind == .announcement then c.acceptAnnouncement m
  else
    let d : Delivery :=
      { kind := m.kind, critical := m.critical, fragment := m.fragment, data := m.data }
    (some d, c.complete d)

def acceptAll : Catalogue → List Message → List Delivery × Catalogue
  | c, [] => ([], c)
  | c, m :: rest =>
    let (d?, c) := c.accept m
    let (ds, c) := acceptAll c rest
    (d?.toList ++ ds, c)

theorem mem_allIds (id : UInt8) : id ∈ allIds := by
  refine List.mem_map.mpr ⟨id.toNat, List.mem_range.mpr id.toNat_lt, UInt8.ofNat_toNat⟩

theorem nodup_allIds : allIds.Nodup := by
  refine List.Nodup.map_on ?_ List.nodup_range
  intro j hj k hk h
  have h := congrArg UInt8.toNat h
  rw [List.mem_range] at hj hk
  rwa [UInt8.toNat_ofNat_of_lt' hj, UInt8.toNat_ofNat_of_lt' hk] at h

theorem mem_passed {newest id x : UInt8} :
    x ∈ passed newest id ↔ Assembly.passes newest id x = true := by
  simp only [passed, List.mem_map, List.mem_range, Assembly.passes, Bool.and_eq_true, bne_iff_ne,
    decide_eq_true_eq, UInt8.le_iff_toNat_le]
  have hbound := (id - newest).toNat_lt
  constructor
  · rintro ⟨k, hk, rfl⟩
    have hsub : newest + UInt8.ofNat (k + 1) - newest = UInt8.ofNat (k + 1) := by
      rw [UInt8.add_comm, UInt8.add_sub_cancel]
    have hnat : (UInt8.ofNat (k + 1)).toNat = k + 1 :=
      UInt8.toNat_ofNat_of_lt' (Nat.lt_of_le_of_lt hk hbound)
    refine ⟨fun h => ?_, ?_⟩
    · rw [h, UInt8.sub_self] at hsub
      rw [← hsub] at hnat
      cases hnat
    · rw [hsub, hnat]
      exact hk
  · rintro ⟨hne, hle⟩
    have hpos : 0 < (x - newest).toNat := by
      rw [Nat.pos_iff_ne_zero]
      intro h
      apply hne
      have hzero : x - newest = 0 := UInt8.toNat_inj.mp h
      rw [← UInt8.sub_add_cancel x newest, hzero, UInt8.zero_add]
    refine ⟨(x - newest).toNat - 1, by omega, ?_⟩
    rw [Nat.sub_add_cancel hpos, UInt8.ofNat_toNat, UInt8.add_comm, UInt8.sub_add_cancel]

end Catalogue

namespace Assembly

/-- The groups by id, and their ids in the order of the list. -/
def catalogue (a : Assembly) : Catalogue where
  groups := a.find?
  order := a.ids
  newest := a.newest
  delivered := a.delivered
  duplicates := a.duplicates
  discarded := a.discarded

section
variable {a : Assembly} {g : Group} {m : Message} {id : UInt8}

@[simp] theorem groups_catalogue (a : Assembly) : a.catalogue.groups = a.find? := rfl

@[simp] theorem order_catalogue (a : Assembly) : a.catalogue.order = a.ids := rfl

@[simp] theorem newest_catalogue (a : Assembly) : a.catalogue.newest = a.newest := rfl

@[simp] theorem delivered_catalogue (a : Assembly) : a.catalogue.delivered = a.delivered := rfl

theorem isSome_find?_iff : (a.find? id).isSome = true ↔ id ∈ a.ids := by
  simp [find?, ids, List.find?_isSome]

theorem find?_eq_none_iff : a.find? id = none ↔ id ∉ a.ids := by
  rw [← isSome_find?_iff, Option.not_isSome_iff_eq_none]

theorem id_eq_of_find? (h : a.find? id = some g) : g.id = id := by
  simpa using List.find?_some h

theorem size_catalogue (hnd : a.ids.Nodup) : a.catalogue.size = a.groups.length := by
  have hperm : (Catalogue.allIds.filter fun id => (a.find? id).isSome).Perm a.ids := by
    refine (List.perm_ext_iff_of_nodup (Catalogue.nodup_allIds.filter _) hnd).mpr fun id => ?_
    rw [List.mem_filter, isSome_find?_iff]
    exact and_iff_right (Catalogue.mem_allIds id)
  have hlength := hperm.length_eq
  rw [ids, List.length_map] at hlength
  rw [← hlength, Catalogue.size, List.countP_eq_length_filter]
  rfl

-- ---------------------------------------------------------------------------
-- Removing groups
-- ---------------------------------------------------------------------------

theorem map_id_filter (stays : UInt8 → Bool) (groups : List Group) :
    (groups.filter (stays ·.id)).map (·.id) = (groups.map (·.id)).filter stays := by
  rw [List.filter_map]
  rfl

theorem find?_filter (stays : UInt8 → Bool) (groups : List Group) (id : UInt8) :
    (groups.filter (stays ·.id)).find? (·.id == id) =
      if stays id = true then groups.find? (·.id == id) else none := by
  rw [List.find?_filter]
  split
  next hstays =>
    refine congrArg (List.find? · groups) (funext fun g => ?_)
    by_cases hid : g.id = id
    · simp [hid, hstays]
    · simp [hid]
  next hgone =>
    refine List.find?_eq_none.mpr fun g _ hg => ?_
    obtain ⟨hstays, hid⟩ := by simpa using hg
    exact hgone (hid ▸ hstays)

theorem find?_without (groups : List Group) (id : UInt8) :
    (fun x => (groups.filter (·.id != id)).find? (·.id == x)) =
      Function.update (fun x => groups.find? (·.id == x)) id none := by
  funext x
  rw [find?_filter (· != id)]
  by_cases hx : x = id
  · simp [hx]
  · simp [hx]

theorem length_without (hnd : a.ids.Nodup) (hid : id ∈ a.ids) :
    a.groups.length - (a.groups.filter (·.id != id)).length = 1 := by
  have hids := congrArg List.length (map_id_filter (· != id) a.groups)
  have herase := List.length_erase_of_mem hid
  rw [hnd.erase_eq_filter] at herase
  rw [List.length_map] at hids
  rw [hids]
  have hpos := List.length_pos_of_mem hid
  simp only [ids, List.length_map] at herase hpos
  omega

def forget (a : Assembly) (id : UInt8) : Assembly :=
  { a with
    groups := a.groups.filter (·.id != id)
    delivered := a.delivered.filter (· != id)
    discarded := a.discarded + (a.groups.length - (a.groups.filter (·.id != id)).length) }

theorem catalogue_forget (hnd : a.ids.Nodup) (id : UInt8) :
    (a.forget id).catalogue = a.catalogue.forget id := by
  cases hfind : a.find? id with
  | none =>
    have hnot := find?_eq_none_iff.mp hfind
    have hall : a.groups.filter (·.id != id) = a.groups := by
      refine List.filter_eq_self.mpr fun g hg => ?_
      rw [bne_iff_ne]
      rintro rfl
      exact hnot (List.mem_map_of_mem hg)
    have hforget : a.forget id = { a with delivered := a.delivered.filter (· != id) } := by
      simp only [forget, hall, Nat.sub_self, Nat.add_zero]
    rw [hforget]
    simp only [Catalogue.forget, groups_catalogue, hfind]
    rfl
  | some g =>
    have hid : id ∈ a.ids := isSome_find?_iff.mp (by rw [hfind]; rfl)
    simp only [catalogue, Catalogue.forget, forget, hfind, Catalogue.erase, Catalogue.mk.injEq,
      true_and]
    exact ⟨find?_without a.groups id, map_id_filter (· != id) a.groups,
      by rw [length_without hnd hid]⟩

theorem nodup_forget (hnd : a.ids.Nodup) (id : UInt8) : (a.forget id).ids.Nodup :=
  ((List.filter_sublist).map _).nodup hnd

theorem foldl_forget (l : List UInt8) (a : Assembly) :
    l.foldl forget a =
      { a with
        groups := a.groups.filter fun g => !l.contains g.id
        delivered := a.delivered.filter fun x => !l.contains x
        discarded := a.discarded +
          (a.groups.length - (a.groups.filter fun g => !l.contains g.id).length) } := by
  induction l generalizing a with
  | nil => simp
  | cons id rest ih =>
    have hle := List.length_filter_le (fun g : Group => g.id != id) a.groups
    have hle' := List.length_filter_le (fun g => !rest.contains g.id) (a.groups.filter (·.id != id))
    have hgroups :
        ∀ g : Group, (!rest.contains g.id && g.id != id) = !(id :: rest).contains g.id := by
      intro g
      rw [List.contains_cons, Bool.not_or, Bool.and_comm]
      rfl
    have hids : ∀ x : UInt8, (!rest.contains x && x != id) = !(id :: rest).contains x := by
      intro x
      rw [List.contains_cons, Bool.not_or, Bool.and_comm]
      rfl
    rw [List.foldl_cons, ih]
    simp only [forget, List.filter_filter, hgroups, hids] at hle' ⊢
    congr 1
    omega

theorem foldl_catalogue_forget (l : List UInt8) (hnd : a.ids.Nodup) :
    (l.foldl forget a).catalogue = l.foldl Catalogue.forget a.catalogue := by
  induction l generalizing a with
  | nil => rfl
  | cons id rest ih =>
    rw [List.foldl_cons, ih (nodup_forget hnd id), catalogue_forget hnd, List.foldl_cons]

theorem catalogue_observe (hnd : a.ids.Nodup) (id : UInt8) :
    (a.observe id).catalogue = a.catalogue.observe id := by
  cases hnewest : a.newest with
  | none =>
    simp only [observe, Catalogue.observe, newest_catalogue, hnewest]
    rfl
  | some newest =>
    have hpassed : ∀ x, (Catalogue.passed newest id).contains x = passes newest id x := by
      intro x
      rw [Bool.eq_iff_iff, List.contains_iff_mem, Catalogue.mem_passed]
    simp only [observe, Catalogue.observe, newest_catalogue, hnewest]
    split
    · rw [← foldl_catalogue_forget _ hnd, foldl_forget]
      simp only [hpassed]
      rfl
    · rfl

theorem nodup_observe (hnd : a.ids.Nodup) (id : UInt8) : (a.observe id).ids.Nodup := by
  unfold observe
  split
  · exact hnd
  · split
    · exact (List.filter_sublist.map _).nodup hnd
    · exact hnd

-- ---------------------------------------------------------------------------
-- Opening, storing and finishing groups
-- ---------------------------------------------------------------------------

def makeRoom (a : Assembly) : Assembly :=
  if maxGroups ≤ a.groups.length
    then { a with groups := a.groups.drop 1, discarded := a.discarded + 1 } else a

theorem openGroup_eq (a : Assembly) (id : UInt8) :
    a.openGroup id =
      if (a.find? id).isSome = true then a
      else { a.makeRoom with groups := a.makeRoom.groups ++ [({ id } : Group)] } := by
  have hany : (a.groups.any (·.id == id)) = (a.find? id).isSome := by
    rw [Bool.eq_iff_iff, List.any_eq_true, find?, List.find?_isSome]
  rw [openGroup, hany, makeRoom]
  split
  · rfl
  · split <;> rfl

theorem catalogue_makeRoom (hnd : a.ids.Nodup) : a.makeRoom.catalogue = a.catalogue.makeRoom := by
  rw [makeRoom, Catalogue.makeRoom, size_catalogue hnd]
  split
  next hfull =>
    cases hgroups : a.groups with
    | nil =>
      rw [hgroups] at hfull
      cases hfull
    | cons oldest rest =>
      simp only [ids, hgroups, List.map_cons, List.nodup_cons] at hnd
      have hfind : (fun x => rest.find? (·.id == x)) = Function.update a.find? oldest.id none := by
        funext x
        by_cases hx : x = oldest.id
        · rw [hx, Function.update_self]
          refine List.find?_eq_none.mpr fun g hg hid => hnd.1 ?_
          exact List.mem_map.mpr ⟨g, hg, beq_iff_eq.mp hid⟩
        · rw [Function.update_of_ne hx, find?, hgroups,
            List.find?_cons_of_neg (by simpa using Ne.symm hx)]
      simp only [catalogue, Catalogue.erase, ids, hgroups, List.map_cons, ← hfind]
      rfl
  · rfl

theorem find?_makeRoom (hnone : a.find? id = none) : a.makeRoom.find? id = none := by
  rw [find?_eq_none_iff] at hnone ⊢
  unfold makeRoom
  split
  · exact fun h => hnone ((List.drop_sublist 1 a.groups).map (·.id) |>.subset h)
  · exact hnone

theorem catalogue_openGroup (hnd : a.ids.Nodup) (id : UInt8) :
    (a.openGroup id).catalogue = a.catalogue.openGroup id := by
  rw [openGroup_eq, Catalogue.openGroup, groups_catalogue]
  split
  · rfl
  next hnone =>
    have hnone := find?_makeRoom (Option.not_isSome_iff_eq_none.mp hnone)
    rw [← catalogue_makeRoom hnd]
    generalize a.makeRoom = b at hnone
    have hfind : (fun x => (b.groups ++ [({ id } : Group)]).find? (·.id == x)) =
        Function.update b.find? id (some { id }) := by
      funext x
      rw [List.find?_append]
      by_cases hx : x = id
      · rw [hx, Function.update_self]
        rw [find?] at hnone
        simp [hnone]
      · rw [Function.update_of_ne hx, find?]
        simp [Ne.symm hx]
    have hids : (b.groups ++ [({ id } : Group)]).map (·.id) = b.ids ++ [id] := by
      rw [List.map_append]
      rfl
    simp only [catalogue, Catalogue.store, ids, ← hfind] at hids ⊢
    simp only [hids]
    rfl

theorem find?_setGroup (hid : g.id ∈ a.ids) :
    (a.setGroup g).find? = Function.update a.find? g.id (some g) := by
  have hsame : ∀ h : Group, (if (h.id == g.id) = true then g else h).id = h.id := by
    intro h
    split
    next heq => exact (beq_iff_eq.mp heq).symm
    · rfl
  funext x
  simp only [find?, setGroup, List.find?_map, Function.comp_def, hsame]
  by_cases hx : x = g.id
  · obtain ⟨h, hfind⟩ := Option.isSome_iff_exists.mp (isSome_find?_iff.mpr hid)
    rw [hx, Function.update_self]
    rw [find?] at hfind
    rw [hfind, Option.map_some, if_pos (List.find?_some hfind)]
  · rw [Function.update_of_ne hx, find?]
    cases hfind : a.groups.find? (·.id == x) with
    | none => rfl
    | some h =>
      have hne : ¬ (h.id == g.id) = true := by
        rw [beq_iff_eq, id_eq_of_find? hfind]
        exact hx
      rw [Option.map_some, if_neg hne]

theorem catalogue_setGroup (hid : g.id ∈ a.ids) :
    (a.setGroup g).catalogue = a.catalogue.store g := by
  simp only [catalogue, Catalogue.store, find?_setGroup hid, ids_setGroup]
  rfl

theorem catalogue_complete (a : Assembly) (d : Delivery) :
    (a.complete d).catalogue = a.catalogue.complete d := by
  unfold complete Catalogue.complete
  split
  · rfl
  · rfl

theorem catalogue_update (hid : g.id ∈ a.ids) :
    ((a.update g).1, (a.update g).2.catalogue) = (a.catalogue.store g).finish g.id := by
  have hstored : (a.catalogue.store g).groups g.id = some g := Function.update_self ..
  unfold Assembly.update
  simp only [Catalogue.finish, hstored]
  split
  · rw [catalogue_complete]
    refine congrArg (some g.delivery, Catalogue.complete · g.delivery) ?_
    simp only [catalogue, Catalogue.store, Catalogue.erase, Function.update_idem,
      Catalogue.mk.injEq, and_true]
    exact ⟨find?_without a.groups g.id, map_id_filter (· != g.id) a.groups⟩
  · rw [catalogue_setGroup hid]

theorem mem_ids_openGroup (a : Assembly) (id : UInt8) : id ∈ (a.openGroup id).ids := by
  unfold openGroup ids
  split
  next hany => simpa using hany
  · split <;> simp

theorem catalogue_update_openGroup (hnd : a.ids.Nodup) (hid : g.id = id) :
    (((a.openGroup id).update g).1, ((a.openGroup id).update g).2.catalogue) =
      ((a.catalogue.openGroup id).store g).finish id := by
  rw [← catalogue_openGroup hnd, ← hid]
  exact catalogue_update (mem_ids_openGroup a g.id)

theorem catalogue_acceptPart (hnd : a.ids.Nodup) (m : Message) :
    ((a.acceptPart m).1, (a.acceptPart m).2.catalogue) = a.catalogue.acceptPart m := by
  simp only [acceptPart, Catalogue.acceptPart, ← catalogue_openGroup hnd, groups_catalogue]
  split
  · rfl
  · rw [catalogue_openGroup hnd]
    exact catalogue_update_openGroup hnd (id_find? _ _)

@[simp] theorem id_announce (g : Group) (total : Nat) (critical : Bool) :
    (g.announce total critical).id = g.id := by
  unfold Group.announce
  split
  · rfl
  · rfl

theorem catalogue_acceptAnnouncement (hnd : a.ids.Nodup) (m : Message) :
    ((a.acceptAnnouncement m).1, (a.acceptAnnouncement m).2.catalogue) =
      a.catalogue.acceptAnnouncement m := by
  simp only [acceptAnnouncement, Catalogue.acceptAnnouncement, ← catalogue_openGroup hnd,
    groups_catalogue]
  cases Announcement.decode m.data with
  | error _ => rfl
  | ok total =>
    dsimp only
    split
    · rfl
    · rw [catalogue_openGroup hnd]
      exact catalogue_update_openGroup hnd ((id_announce _ _ _).trans (id_find? _ _))

/-- A catalogue takes a message as the assembly does. -/
theorem catalogue_accept (hnd : a.ids.Nodup) (m : Message) :
    ((a.accept m).1, (a.accept m).2.catalogue) = a.catalogue.accept m := by
  have hobserve := nodup_observe hnd m.fragment
  simp only [accept, Catalogue.accept, ← catalogue_observe hnd, delivered_catalogue]
  generalize a.observe m.fragment = b at hobserve
  split
  · rfl
  · split
    · exact catalogue_acceptPart hobserve m
    · split
      · exact catalogue_acceptAnnouncement hobserve m
      · rw [← catalogue_complete]

end

end Assembly

end Courier
