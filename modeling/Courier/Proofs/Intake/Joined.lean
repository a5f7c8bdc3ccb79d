import Courier.Proofs.Intake

/-!
# Which messages are joined

A joining goes along with an intake. For each id it keeps the messages that were
put into its group since that was opened, and beside every payload returned the
messages that were joined to it. As long as numbers stay within reach of each
other, these are the messages of one payload, and all of them (`takeAll_joined`).
-/

namespace Courier

open Assembly (Recent)

def Message.isWhole (m : Message) : Bool := m.order == 0 && m.kind != .announcement

structure Joining where
  intake : Intake := {}
  /-- The messages put into the group with this id since it was opened. -/
  members : UInt8 → List (Message × Nat) := fun _ => []
  /-- All payloads returned, each with the messages joined to it. -/
  joined : List (Delivery × List (Message × Nat)) := []

namespace Joining

/-- The message with all that is in its group already. -/
def companions (j : Joining) (x : Message × Nat) : List (Message × Nat) :=
  if !x.1.isWhole && (j.intake.assembly.observe x.1.fragment).ids.contains x.1.fragment then
    j.members x.1.fragment ++ [x]
  else [x]

def take (j : Joining) (x : Message × Nat) : Joining where
  intake := j.intake.take x
  members id := if !x.1.isWhole && id == x.1.fragment then j.companions x else j.members id
  joined :=
    j.joined ++ (j.intake.assembly.accept x.1).1.toList.map fun d => (d, j.companions x)

def takeAll (xs : List (Message × Nat)) : Joining := xs.foldl take {}

/-- Group `g` has nothing but what `members` brought, and these belong to one payload. -/
def Unmixed (payloads : List Payload) (top : Nat) (members : List (Message × Nat)) (g : Group) :
    Prop :=
  ∃ u, Recent top u ∧ g.id = UInt8.ofNat u ∧
    (∀ x ∈ members, Payload.Belongs payloads x ∧ x.2 = u) ∧
    ∀ p, payloads[u]? = some p → ∀ m ∈ p.pieces u, g.Has m → (m, u) ∈ members

/-- What a joining knows when `top` is the newest payload and its assembly is `a`. -/
structure Single (payloads : List Payload) (top : Nat) (j : Joining) (a : Assembly) : Prop where
  groups : ∀ g ∈ a.groups, Unmixed payloads top (j.members g.id) g
  joined : ∀ x ∈ j.joined, ∃ n p, payloads[n]? = some p ∧ x.1 = p.delivery n ∧
    ∀ y, y ∈ x.2 ↔ y.1 ∈ p.pieces n ∧ y.2 = n

section
variable {payloads : List Payload} {j : Joining} {p : Payload} {m m' : Message} {top n : Nat}

/-- Observing an id that is within reach leaves only groups that are still recent. -/
theorem Single.observe (h : j.Single payloads top j.intake.assembly)
    (hnewest : j.intake.assembly.newest = some (UInt8.ofNat top)) (hle : n ≤ top + 127)
    (hge : top ≤ n + 127) :
    j.Single payloads (max top n) (j.intake.assembly.observe (UInt8.ofNat n)) := by
  obtain ⟨stays, -, hgroups, -, hstays⟩ := Assembly.observe_spec hnewest hle hge
  refine ⟨fun g hg => ?_, h.joined⟩
  rw [hgroups] at hg
  obtain ⟨hg, hstay⟩ := List.mem_filter.mp hg
  obtain ⟨u, hu, hid, hmembers⟩ := h.groups g hg
  rw [hid] at hstay
  exact ⟨u, (hstays u hu).mp hstay, hid, hmembers⟩

-- ---------------------------------------------------------------------------
-- Taking in one message
-- ---------------------------------------------------------------------------

theorem eq_of_isWhole (hp : p.Sendable) (hm : m ∈ p.pieces n) (hwhole : m.isWhole = true)
    (hm' : m' ∈ p.pieces n) : p.data.length ≤ Message.maxData ∧ m' = m := by
  simp only [Message.isWhole, Bool.and_eq_true, beq_iff_eq, bne_iff_ne] at hwhole
  obtain ⟨horder, hkind⟩ := hwhole
  rcases Payload.mem_pieces.mp hm with ⟨hshort, rfl⟩ | ⟨hlong, rfl | ⟨i, hi, rfl⟩⟩
  · rcases Payload.mem_pieces.mp hm' with ⟨-, rfl⟩ | ⟨hlong, -⟩
    · exact ⟨hshort, rfl⟩
    · omega
  · exact absurd rfl hkind
  · have hzero := congrArg UInt8.toNat horder
    rw [Payload.part, hp.toNat_order hi] at hzero
    cases hzero

theorem self_mem_companions (j : Joining) (x : Message × Nat) : x ∈ j.companions x := by
  unfold companions
  split
  · exact List.mem_append_right _ (List.mem_singleton_self x)
  · exact List.mem_singleton_self x

section
variable (h : Intake.Taking payloads top j.intake m n p)
  (hj : j.Single payloads top (j.intake.assembly.observe m.fragment))

include h hj

theorem belongs_companions : ∀ x ∈ j.companions (m, n), Payload.Belongs payloads x ∧ x.2 = n := by
  intro x hx
  have hlast (hx : x ∈ [(m, n)]) : Payload.Belongs payloads x ∧ x.2 = n := by
    obtain rfl := List.mem_singleton.mp hx
    exact ⟨⟨p, h.payload_eq, h.mem⟩, rfl⟩
  unfold companions at hx
  split at hx
  next hopen =>
    rcases List.mem_append.mp hx with hx | hx
    · rw [Bool.and_eq_true, List.contains_iff_mem] at hopen
      obtain ⟨g, hg, hid⟩ := List.mem_map.mp hopen.2
      obtain ⟨u, hu, hgid, hmembers, -⟩ := hj.groups g hg
      obtain rfl := hu.eq_of_id h.recent (hgid.symm.trans (hid.trans h.fragment_eq))
      exact hmembers x (hid ▸ hx)
    · exact hlast hx
  · exact hlast hx

theorem mem_companions (hm' : m' ∈ p.pieces n)
    (hhas : m' = m ∨ (j.intake.assembly.observe m.fragment).Holds m.fragment m') :
    (m', n) ∈ j.companions (m, n) := by
  rcases hhas with rfl | ⟨g, hg, hid, hhas⟩
  · exact j.self_mem_companions _
  cases hwhole : m.isWhole with
  | true =>
    obtain ⟨-, rfl⟩ := eq_of_isWhole h.sendable h.mem hwhole hm'
    exact j.self_mem_companions _
  | false =>
    have hopen : (j.intake.assembly.observe m.fragment).ids.contains m.fragment = true :=
      List.contains_iff_mem.mpr (List.mem_map.mpr ⟨g, hg, hid⟩)
    obtain ⟨u, hu, hgid, -, hsource⟩ := hj.groups g hg
    obtain rfl := hu.eq_of_id h.recent (hgid.symm.trans (hid.trans h.fragment_eq))
    rw [companions, if_pos (by rw [hwhole, hopen]; rfl), ← hid]
    exact List.mem_append_left _ (hsource p h.payload_eq m' hm' hhas)

theorem unmixed_take {g : Group} (hg : g ∈ (j.intake.assembly.accept m).2.groups) :
    Unmixed payloads top ((j.take (m, n)).members g.id) g := by
  rcases h.traced.source g hg with ⟨hold, hne⟩ | ⟨-, hid, hsource⟩
  · have hsame : (j.take (m, n)).members g.id = j.members g.id := by simp [take, hne]
    rw [hsame]
    exact hj.groups g hold
  · obtain ⟨-, u, q, held, hq, hu, hcollects⟩ := h.groups hg
    obtain rfl := hu.eq_of_id h.recent (hcollects.id_eq.symm.trans (hid.trans h.fragment_eq))
    obtain rfl := Option.some.inj (hq.symm.trans h.payload_eq)
    have hpart : m.isWhole = false := by
      by_contra hwhole
      have hshort := (eq_of_isWhole h.sendable h.mem (Bool.of_not_eq_false hwhole) h.mem).1
      exact absurd hcollects.long (Nat.not_lt.mpr hshort)
    have hadded : (j.take (m, u)).members g.id = j.companions (m, u) := by simp [take, hid, hpart]
    rw [hadded]
    refine ⟨u, hu, hcollects.id_eq, belongs_companions h hj, fun q' hq' m' hm' hhas => ?_⟩
    obtain rfl := Option.some.inj (hq'.symm.trans hq)
    exact mem_companions h hj hm' (hsource m' hm' hhas)

theorem Single.take : (j.take (m, n)).Single payloads top (j.take (m, n)).intake.assembly where
  groups _ hg := unmixed_take h hj hg
  joined x hx := by
    rcases List.mem_append.mp hx with hx | hx
    · exact hj.joined x hx
    · obtain ⟨d, hd, rfl⟩ := List.mem_map.mp hx
      have hsome := Option.mem_toList.mp hd
      refine ⟨n, p, h.payload_eq, (h.accepted.delivery_eq d hsome).1, fun (m', u) => ⟨?_, ?_⟩⟩
      · intro hmem
        obtain ⟨⟨q, hq, hm'⟩, rfl⟩ := belongs_companions h hj _ hmem
        obtain rfl := Option.some.inj (hq.symm.trans h.payload_eq)
        exact ⟨hm', rfl⟩
      · rintro ⟨hm', rfl⟩
        exact mem_companions h hj hm' (h.traced.filled (Option.isSome_of_mem hsome) m' hm')

end

-- ---------------------------------------------------------------------------
-- Taking in all messages of a run
-- ---------------------------------------------------------------------------

theorem takeAll_append (xs : List (Message × Nat)) (x : Message × Nat) :
    takeAll (xs ++ [x]) = (takeAll xs).take x := by
  rw [takeAll, List.foldl_append]
  rfl

theorem intake_takeAll (xs : List (Message × Nat)) :
    (takeAll xs).intake = Intake.takeAll xs ∧
      (takeAll xs).joined.map (·.1) = (Intake.takeAll xs).deliveries.map (·.1) := by
  induction xs using List.reverseRecOn with
  | nil => exact ⟨rfl, rfl⟩
  | append_singleton xs x ih =>
    obtain ⟨hintake, hjoined⟩ := ih
    rw [takeAll_append, Intake.takeAll_append]
    refine ⟨congrArg (·.take x) hintake, ?_⟩
    simp [take, Intake.take, hintake, hjoined]

theorem companions_subset (j : Joining) (x : Message × Nat) :
    j.companions x ⊆ j.members x.1.fragment ++ [x] := by
  unfold companions
  split
  · exact List.Subset.refl _
  · exact List.subset_append_right _ _

theorem subset_takeAll (xs : List (Message × Nat)) :
    (∀ id, (takeAll xs).members id ⊆ xs) ∧ ∀ x ∈ (takeAll xs).joined, x.2 ⊆ xs := by
  induction xs using List.reverseRecOn with
  | nil => exact ⟨fun _ => List.nil_subset _, fun _ hx => nomatch hx⟩
  | append_singleton xs x ih =>
    obtain ⟨hmembers, hjoined⟩ := ih
    have hadded : (takeAll xs).companions x ⊆ xs ++ [x] := by
      intro y hy
      rcases List.mem_append.mp (companions_subset _ x hy) with hy | hy
      · exact List.mem_append_left _ (hmembers _ hy)
      · exact List.mem_append_right _ hy
    rw [takeAll_append]
    refine ⟨fun id => ?_, fun y hy => ?_⟩
    · show (if _ then _ else _) ⊆ xs ++ [x]
      split
      · exact hadded
      · exact List.subset_append_of_subset_left _ (hmembers id)
    · rcases List.mem_append.mp hy with hy | hy
      · exact List.subset_append_of_subset_left _ (hjoined y hy)
      · obtain ⟨d, -, rfl⟩ := List.mem_map.mp hy
        exact hadded

section
variable (hsendable : ∀ p ∈ payloads, p.Sendable) {xs : List (Message × Nat)}
  (hcargo : ∀ x ∈ xs, Payload.Belongs payloads x) (hreach : Intake.InReach (xs.map (·.2)))

include hsendable hcargo hreach

theorem single_takeAll :
    xs = [] ∨ ∃ top, (xs.map (·.2)).max? = some top ∧
      (takeAll xs).Single payloads top (takeAll xs).intake.assembly := by
  induction xs using List.reverseRecOn with
  | nil => exact .inl rfl
  | append_singleton xs x ih =>
    obtain ⟨m, n⟩ := x
    obtain ⟨hbefore, hnear⟩ : Intake.InReach (xs.map (·.2)) ∧ _ :=
      Intake.InReach.append (by simpa using hreach)
    have hcargo' : ∀ y ∈ xs, Payload.Belongs payloads y := fun y hy =>
      hcargo y (List.mem_append_left _ hy)
    have hsound := Intake.sound_takeAll hsendable hcargo' hbefore
    obtain ⟨top, p, htop, htaking⟩ :=
      Intake.exists_taking hsendable (hcargo (m, n) (by simp)) hreach hsound
    rw [← (intake_takeAll xs).1] at htaking
    -- the groups that observing the id leaves are still those of one payload each
    have hobserved : (takeAll xs).Single payloads top
        ((takeAll xs).intake.assembly.observe m.fragment) := by
      rcases ih hcargo' hbefore with rfl | ⟨old, hold, hsingle⟩
      · exact ⟨fun g hg => (nomatch hg), fun x hx => (nomatch hx)⟩
      · rcases hsound with rfl | ⟨_, hmax, hsound⟩
        · cases hold
        obtain rfl := Option.some.inj (hmax.symm.trans hold)
        obtain ⟨hle, hge⟩ := hnear _ hold
        rw [List.map_append] at htop
        obtain rfl := Option.some.inj ((Intake.max?_append hold).symm.trans htop)
        rw [htaking.fragment_eq]
        exact hsingle.observe ((intake_takeAll xs).1 ▸ hsound.newest_eq) hle hge
    rw [takeAll_append]
    exact .inr ⟨top, htop, Single.take htaking hobserved⟩

/-- What is joined to a payload returned are its own messages, and all of them. -/
theorem takeAll_joined : ∀ x ∈ (takeAll xs).joined, ∃ n p, payloads[n]? = some p ∧
    x.1 = p.delivery n ∧ ∀ y, y ∈ x.2 ↔ y.1 ∈ p.pieces n ∧ y.2 = n := by
  rcases single_takeAll hsendable hcargo hreach with rfl | ⟨top, -, hsingle⟩
  · exact fun x hx => nomatch hx
  · exact hsingle.joined

end

end

end Joining

end Courier
