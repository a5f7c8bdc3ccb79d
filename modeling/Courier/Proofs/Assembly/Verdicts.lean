import Courier.Proofs.Assembly.Accept

/-!
# Verdicts are not put together from parts

A verdict is a single byte and is sent as one whole message. An assembly that
gets verdicts in no other way returns one only if it was sent.
-/

namespace Courier

def Message.Honest (said : Bool → Prop) (m : Message) : Prop :=
  m.kind = .verdict → m.order = 0 ∧ ∃ answer, m.data = Verdict.encode answer ∧ said answer

def Delivery.Honest (said : Bool → Prop) (d : Delivery) : Prop :=
  d.kind = .verdict → ∃ answer, d.data = Verdict.encode answer ∧ said answer

theorem Message.Honest.mono {said said' : Bool → Prop} {m : Message} (hm : m.Honest said)
    (hsaid : ∀ answer, said answer → said' answer) : m.Honest said' := by
  intro hkind
  obtain ⟨horder, answer, hdata, hanswer⟩ := hm hkind
  exact ⟨horder, answer, hdata, hsaid answer hanswer⟩

theorem Outbox.kind_of_mem_pieces {kind : Kind} {critical : Bool} {id : UInt8} {payload : Bytes}
    {m : Message} (hm : m ∈ Outbox.pieces kind critical id payload) :
    m.kind = kind ∨ m.kind = .announcement := by
  unfold Outbox.pieces at hm
  split at hm
  · rcases List.mem_cons.mp hm with rfl | hpart
    · exact .inr rfl
    · obtain ⟨i, -, rfl⟩ := List.mem_mapIdx.mp hpart
      exact .inl rfl
  · obtain rfl := List.mem_singleton.mp hm
    exact .inl rfl

theorem Message.Honest.of_mem_pieces {said : Bool → Prop} {kind : Kind} {critical : Bool}
    {id : UInt8} {payload : Bytes} {m : Message} (hkind : kind ≠ .verdict)
    (hm : m ∈ Outbox.pieces kind critical id payload) : m.Honest said := by
  intro hverdict
  rcases Outbox.kind_of_mem_pieces hm with h | h
  · exact absurd (h.symm.trans hverdict) hkind
  · rw [h] at hverdict
    cases hverdict

namespace Group

variable {g : Group} {m : Message}

theorem kind_addPart (hg : g.kind ≠ some .verdict) (hm : m.kind ≠ .verdict) :
    (g.addPart m).kind ≠ some .verdict := by
  cases h : g.kind with
  | none => simpa [addPart, h] using hm
  | some kind => simpa [addPart, h] using hg

theorem kind_announce (hg : g.kind ≠ some .verdict) (total : Nat) (critical : Bool) :
    (g.announce total critical).kind ≠ some .verdict := by
  simp only [announce]
  split
  · simp
  · exact hg

theorem kind_delivery (hg : g.kind ≠ some .verdict) : g.delivery.kind ≠ .verdict := by
  cases h : g.kind with
  | none => simp [delivery, h, Kind.data, Kind.verdict]
  | some kind => simpa [delivery, h] using hg

end Group

namespace Assembly

def Plain (a : Assembly) : Prop := ∀ g ∈ a.groups, g.kind ≠ some .verdict

section
variable {a a' : Assembly} {g : Group} {m : Message} {said : Bool → Prop}

theorem plain_empty : ({} : Assembly).Plain := by simp [Plain]

theorem Plain.of_subset (ha : a.Plain) (h : a'.groups ⊆ a.groups) : a'.Plain :=
  fun g hg => ha g (h hg)

theorem Plain.openGroup (ha : a.Plain) (id : UInt8) : (a.openGroup id).Plain := by
  unfold Assembly.openGroup
  split
  · exact ha
  · split
    · intro g hg
      rcases List.mem_append.mp hg with hold | hnew
      · exact ha g (List.mem_of_mem_drop hold)
      · simp_all
    · intro g hg
      rcases List.mem_append.mp hg with hold | hnew
      · exact ha g hold
      · simp_all

theorem Plain.kind_group (ha : a.Plain) (id : UInt8) :
    ((a.find? id).getD { id }).kind ≠ some .verdict := by
  cases hfind : a.find? id with
  | none => simp
  | some g => exact ha g (List.mem_of_find?_eq_some hfind)

theorem Plain.update (ha : a.Plain) (hg : g.kind ≠ some .verdict) :
    (a.update g).2.Plain ∧ ∀ d ∈ (a.update g).1, d.Honest said := by
  unfold Assembly.update
  split
  · constructor
    · apply ha.of_subset
      simp
    · rintro d hd hkind
      obtain rfl : g.delivery = d := by simpa using hd
      exact absurd hkind (Group.kind_delivery hg)
  · constructor
    · intro h hh
      obtain ⟨x, hx, rfl⟩ := List.mem_map.mp hh
      split
      · exact hg
      · exact ha x hx
    · simp

theorem Plain.acceptPart (ha : a.Plain) (hm : m.kind ≠ .verdict) :
    (a.acceptPart m).2.Plain ∧ ∀ d ∈ (a.acceptPart m).1, d.Honest said := by
  have hopen := ha.openGroup m.fragment
  unfold Assembly.acceptPart
  dsimp only
  split
  · exact ⟨hopen, by simp⟩
  · apply hopen.update
    exact Group.kind_addPart (hopen.kind_group _) hm

theorem Plain.acceptAnnouncement (ha : a.Plain) (m : Message) :
    (a.acceptAnnouncement m).2.Plain ∧ ∀ d ∈ (a.acceptAnnouncement m).1, d.Honest said := by
  have hopen := ha.openGroup m.fragment
  unfold Assembly.acceptAnnouncement
  split
  · exact ⟨ha, by simp⟩
  · split
    · exact ⟨ha, by simp⟩
    · apply hopen.update
      exact Group.kind_announce (hopen.kind_group _) _ _

theorem Plain.accept (ha : a.Plain) (hm : m.Honest said) :
    (a.accept m).2.Plain ∧ ∀ d ∈ (a.accept m).1, d.Honest said := by
  have hobserved : (a.observe m.fragment).Plain := ha.of_subset (a.groups_observe _)
  unfold Assembly.accept
  dsimp only
  split
  · exact ⟨hobserved, by simp⟩
  · split
    next horder =>
      apply hobserved.acceptPart
      intro hkind
      simp [(hm hkind).1] at horder
    · split
      · exact hobserved.acceptAnnouncement m
      · constructor
        · apply hobserved.of_subset
          simp
        · rintro d hd hkind
          cases hd
          exact (hm hkind).2

theorem Plain.acceptAll {ms : List Message} (ha : a.Plain) (hms : ∀ m ∈ ms, m.Honest said) :
    (a.acceptAll ms).2.Plain ∧ ∀ d ∈ (a.acceptAll ms).1, d.Honest said := by
  induction ms generalizing a with
  | nil => exact ⟨ha, by simp [Assembly.acceptAll]⟩
  | cons m rest ih =>
    obtain ⟨hm, hrest⟩ := List.forall_mem_cons.mp hms
    obtain ⟨hplain, hfirst⟩ := ha.accept hm
    obtain ⟨hplain', hothers⟩ := ih hplain hrest
    refine ⟨hplain', fun d hd => ?_⟩
    rcases List.mem_append.mp hd with hd | hd
    · exact hfirst d (Option.mem_toList.mp hd)
    · exact hothers d hd

end

end Assembly

end Courier
