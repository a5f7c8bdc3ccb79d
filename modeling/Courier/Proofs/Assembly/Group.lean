import Mathlib.Data.List.Sort
import Courier.Proofs.Payload

/-!
# Groups collect the parts of one payload

`Collects` says that everything in a group comes from one payload. It lists the
parts that are there, so adding a part inserts one number, and the group is
complete once it was announced and no number is missing.
-/

namespace Courier.Group

/-- The group `g` has the parts `held` of payload `number`, and nothing else. -/
structure Collects (g : Group) (p : Payload) (number : Nat) (held : List Nat) : Prop where
  long : Message.maxData < p.data.length
  id_eq : g.id = UInt8.ofNat number
  total_eq : ∀ total, g.total = some total → total = p.data.length
  kind_eq : g.kind = if held = [] then none else some p.kind
  critical_le : g.critical = true → p.critical = true
  critical_eq : g.total.isSome = true → g.critical = p.critical
  sorted : held.Pairwise (· < ·)
  lt_count : ∀ i ∈ held, i < p.count
  parts_eq : g.parts = held.map fun i => (UInt8.ofNat (i + 1), p.chunk i)
  received_eq : g.received = (held.flatMap p.chunk).length

def Has (g : Group) (m : Message) : Prop :=
  if m.order = 0 then g.total.isSome = true else g.hasPart m.order = true

section
variable {g : Group} {p : Payload} {number i : Nat} {held : List Nat}

theorem collects_fresh (hlong : Message.maxData < p.data.length) :
    ({ id := UInt8.ofNat number } : Group).Collects p number [] where
  long := hlong
  id_eq := rfl
  total_eq _ htotal := nomatch htotal
  kind_eq := rfl
  critical_le hcritical := nomatch hcritical
  critical_eq htotal := nomatch htotal
  sorted := .nil
  lt_count _ hi := nomatch hi
  parts_eq := rfl
  received_eq := rfl

theorem order_inj (hp : p.Sendable) {i j : Nat} (hi : i < p.count) (hj : j < p.count) :
    UInt8.ofNat (i + 1) = UInt8.ofNat (j + 1) ↔ i = j := by
  rw [← UInt8.toNat_inj, hp.toNat_order hi, hp.toNat_order hj]
  omega

theorem Collects.hasPart_iff (h : g.Collects p number held) (hp : p.Sendable) (hi : i < p.count) :
    g.hasPart (UInt8.ofNat (i + 1)) = true ↔ i ∈ held := by
  simp only [hasPart, h.parts_eq, List.any_map, List.any_eq_true, Function.comp_apply, beq_iff_eq]
  constructor
  · rintro ⟨j, hj, horder⟩
    rwa [← (order_inj hp (h.lt_count j hj) hi).mp horder]
  · intro hi
    exact ⟨i, hi, rfl⟩

theorem not_has_fresh (id : UInt8) (m : Message) : ¬ ({ id } : Group).Has m := by
  unfold Has
  split
  · simp
  · simp [hasPart]

theorem has_announcement : g.Has (p.announcement number) ↔ g.total.isSome = true := by
  simp only [Has, Payload.announcement, if_true]

theorem Collects.has_part (h : g.Collects p number held) (hp : p.Sendable) (hi : i < p.count) :
    g.Has (p.part number i) ↔ i ∈ held := by
  have hne : UInt8.ofNat (i + 1) ≠ 0 := by
    intro hzero
    have := congrArg UInt8.toNat hzero
    rw [hp.toNat_order hi] at this
    cases this
  show (if UInt8.ofNat (i + 1) = 0 then _ else _) ↔ _
  rw [if_neg hne]
  exact h.hasPart_iff hp hi

theorem Collects.announce (h : g.Collects p number held) :
    (g.announce p.data.length p.critical).Collects p number held ∧
      (g.announce p.data.length p.critical).total = some p.data.length := by
  have hsame : g.total.any (· != p.data.length) = false := by
    cases ht : g.total with
    | none => rfl
    | some total => simp [h.total_eq total ht]
  have hcritical : (g.critical || p.critical) = p.critical := by
    cases hc : g.critical with
    | false => rfl
    | true => rw [h.critical_le hc]; rfl
  refine ⟨?_, rfl⟩
  simp only [Group.announce, hsame, Bool.false_eq_true, if_false]
  refine ⟨h.long, h.id_eq, ?_, h.kind_eq, ?_, ?_, h.sorted, h.lt_count, h.parts_eq, h.received_eq⟩
  · intro total ht
    exact (Option.some.inj ht).symm
  · show (g.critical || p.critical) = true → _
    rw [hcritical]
    exact fun hc => hc
  · exact fun _ => hcritical

theorem insertPart_map (hp : p.Sendable) (hi : i < p.count) (hlt : ∀ j ∈ held, j < p.count)
    (hnot : i ∉ held) :
    insertPart (UInt8.ofNat (i + 1)) (p.chunk i)
      (held.map fun j => (UInt8.ofNat (j + 1), p.chunk j)) =
      (held.orderedInsert (· ≤ ·) i).map fun j => (UInt8.ofNat (j + 1), p.chunk j) := by
  induction held with
  | nil => rfl
  | cons j rest ih =>
    have hj := hlt j List.mem_cons_self
    have hne : i ≠ j := fun e => hnot (e ▸ List.mem_cons_self)
    have horder : UInt8.ofNat (i + 1) < UInt8.ofNat (j + 1) ↔ i ≤ j := by
      rw [UInt8.lt_iff_toNat_lt, hp.toNat_order hi, hp.toNat_order hj]
      omega
    have hrest := ih (fun k hk => hlt k (List.mem_cons_of_mem _ hk)) fun hmem =>
      hnot (List.mem_cons_of_mem _ hmem)
    rw [List.map_cons, insertPart, List.orderedInsert_cons]
    by_cases hle : i ≤ j
    · rw [if_pos (horder.mpr hle), if_pos hle]
      rfl
    · rw [if_neg (mt horder.mp hle), if_neg hle, hrest]
      rfl

theorem Collects.addPart (h : g.Collects p number held) (hp : p.Sendable) (hi : i < p.count)
    (hnot : i ∉ held) :
    (g.addPart (p.part number i)).Collects p number (held.orderedInsert (· ≤ ·) i) := by
  have hne : held.orderedInsert (· ≤ ·) i ≠ [] := by
    intro hnil
    have := (List.mem_orderedInsert (r := (· ≤ ·)) (a := i) (b := i) (l := held)).mpr (.inl rfl)
    rw [hnil] at this
    cases this
  have hperm := List.perm_orderedInsert (· ≤ ·) i held
  have hcritical : (g.critical || p.critical) = true → p.critical = true := by
    rw [Bool.or_eq_true]
    rintro (hc | hc)
    · exact h.critical_le hc
    · exact hc
  refine ⟨h.long, h.id_eq, h.total_eq, ?_, hcritical, ?_, ?_, ?_, ?_, ?_⟩
  · show g.kind.or (some p.kind) = _
    rw [h.kind_eq, if_neg hne]
    by_cases hnil : held = []
    · rw [if_pos hnil]
      rfl
    · rw [if_neg hnil]
      rfl
  · intro ht
    show (g.critical || p.critical) = p.critical
    rw [h.critical_eq ht, Bool.or_self]
  · have hle : (held.orderedInsert (· ≤ ·) i).Pairwise (· ≤ ·) :=
      (h.sorted.imp fun hlt => Nat.le_of_lt hlt).orderedInsert i held
    have hnd : (held.orderedInsert (· ≤ ·) i).Nodup :=
      hperm.nodup_iff.mpr (List.nodup_cons.mpr ⟨hnot, h.sorted.imp fun hlt => Nat.ne_of_lt hlt⟩)
    exact (hle.and hnd).imp fun hj => Nat.lt_of_le_of_ne hj.1 hj.2
  · intro j hj
    rcases (List.mem_orderedInsert (· ≤ ·)).mp hj with rfl | hj
    · exact hi
    · exact h.lt_count j hj
  · show insertPart _ _ g.parts = _
    rw [h.parts_eq]
    exact insertPart_map hp hi h.lt_count hnot
  · show g.received + (p.chunk i).length = _
    rw [(hperm.flatMap_right p.chunk).length_eq, List.flatMap_cons, List.length_append,
      h.received_eq, Nat.add_comm]

theorem Collects.held_eq_range (h : g.Collects p number held) (hp : p.Sendable)
    (horders : held.map (fun i => UInt8.ofNat (i + 1)) =
      (List.range held.length).map fun i => UInt8.ofNat (i + 1)) :
      held = List.range held.length := by
  have hlen : held.length ≤ p.count := by
    have hnd : held.Nodup := h.sorted.imp fun hlt => Nat.ne_of_lt hlt
    have := List.Nodup.length_le_of_subset hnd fun i hi => List.mem_range.mpr (h.lt_count i hi)
    rwa [List.length_range] at this
  refine List.ext_getElem (List.length_range).symm ?_
  intro k hk _
  have hkey := congrArg (fun l : List UInt8 => l[k]?) horders
  simp only [List.getElem?_map, List.getElem?_eq_getElem hk, Option.map_some,
    List.getElem?_range hk, Option.some.injEq] at hkey
  rw [List.getElem_range]
  exact (order_inj hp (h.lt_count _ (List.getElem_mem hk)) (by omega)).mp hkey

theorem Collects.held_eq_all (h : g.Collects p number held) (hall : ∀ i < p.count, i ∈ held) :
    held = List.range p.count :=
  h.sorted.eq_of_mem_iff List.pairwise_lt_range fun i =>
    ⟨fun hi => List.mem_range.mpr (h.lt_count i hi), fun hi => hall i (List.mem_range.mp hi)⟩

theorem Collects.isComplete_iff (h : g.Collects p number held) (hp : p.Sendable) :
    g.isComplete = true ↔ g.total.isSome = true ∧ ∀ i < p.count, i ∈ held := by
  have hlong := h.long
  have hcount : p.count = (p.data.length + 95) / 96 := rfl
  simp only [isComplete, Bool.and_eq_true, beq_iff_eq, h.parts_eq, List.map_map, List.length_map]
  constructor
  · rintro ⟨htotal, horders⟩
    have hheld := h.held_eq_range hp horders
    refine ⟨by rw [htotal]; rfl, ?_⟩
    have hlen := h.total_eq _ htotal
    rw [h.received_eq, hheld, Payload.flatMap_chunk, List.length_take] at hlen
    intro i hi
    rw [hheld, List.mem_range]
    simp only [Message.maxData] at hlen
    omega
  · rintro ⟨htotal, hall⟩
    have hheld := h.held_eq_all hall
    obtain ⟨total, ht⟩ := Option.isSome_iff_exists.mp htotal
    refine ⟨?_, ?_⟩
    · rw [ht, h.total_eq total ht, h.received_eq, hheld, Payload.flatMap_count]
    · rw [hheld, List.length_range]
      rfl

theorem Collects.delivery_eq (h : g.Collects p number held) (hp : p.Sendable)
    (hcomplete : g.isComplete = true) : g.delivery = p.delivery number := by
  obtain ⟨htotal, hall⟩ := (h.isComplete_iff hp).mp hcomplete
  have hheld := h.held_eq_all hall
  have hdata : g.parts.flatMap (·.2) = p.data := by
    rw [h.parts_eq, List.flatMap_map, hheld]
    exact p.flatMap_count
  have hne : held ≠ [] := by
    rintro rfl
    have hlong := h.long
    rw [← p.flatMap_count, ← hheld] at hlong
    cases hlong
  simp only [delivery, Payload.delivery, hdata, h.id_eq, h.critical_eq htotal, h.kind_eq,
    if_neg hne, Option.getD_some]

/-- A group is complete once it has every message of its payload. -/
theorem Collects.isComplete_iff_has (h : g.Collects p number held) (hp : p.Sendable) :
    g.isComplete = true ↔ ∀ m ∈ p.pieces number, g.Has m := by
  have hlong := h.long
  rw [h.isComplete_iff hp]
  constructor
  · rintro ⟨htotal, hall⟩ m hm
    rcases Payload.mem_pieces.mp hm with ⟨hshort, -⟩ | ⟨-, rfl | ⟨i, hi, rfl⟩⟩
    · omega
    · exact has_announcement.mpr htotal
    · exact (h.has_part hp hi).mpr (hall i hi)
  · intro hall
    refine ⟨?_, fun i hi => ?_⟩
    · exact has_announcement.mp (hall _ (Payload.mem_pieces.mpr (.inr ⟨hlong, .inl rfl⟩)))
    · exact (h.has_part hp hi).mp
        (hall _ (Payload.mem_pieces.mpr (.inr ⟨hlong, .inr ⟨i, hi, rfl⟩⟩)))

theorem Collects.exists_missing (h : g.Collects p number held) (hp : p.Sendable)
    (hincomplete : g.isComplete = false) : ∃ m ∈ p.pieces number, ¬ g.Has m := by
  by_contra hnone
  push Not at hnone
  rw [(h.isComplete_iff_has hp).mpr hnone] at hincomplete
  cases hincomplete

-- ---------------------------------------------------------------------------
-- What a message adds to a group
-- ---------------------------------------------------------------------------

theorem any_insertPart (order k : UInt8) (data : Bytes) (parts : List (UInt8 × Bytes)) :
    (insertPart order data parts).any (·.1 == k) = (order == k || parts.any (·.1 == k)) := by
  induction parts with
  | nil => simp [insertPart]
  | cons part rest ih =>
    rw [insertPart]
    split
    · simp
    · simp [ih, Bool.or_left_comm]

theorem has_addPart {m m' : Message} (hne : m.order ≠ 0) :
    (g.addPart m).Has m' ↔ m'.order = m.order ∨ g.Has m' := by
  unfold Has
  split
  next hzero =>
    have hother : m'.order ≠ m.order := fun e => hne (e ▸ hzero)
    simp [addPart, hother]
  · simp only [hasPart, addPart, any_insertPart, Bool.or_eq_true, beq_iff_eq]
    exact or_congr eq_comm Iff.rfl

theorem Collects.has_announce (h : g.Collects p number held) {m' : Message} :
    (g.announce p.data.length p.critical).Has m' ↔ m'.order = 0 ∨ g.Has m' := by
  obtain ⟨hafter, htotal⟩ := h.announce
  unfold Has
  split
  next hzero => simp [htotal, hzero]
  next hne => simp [hasPart, hafter.parts_eq, h.parts_eq, hne]

end

end Courier.Group
