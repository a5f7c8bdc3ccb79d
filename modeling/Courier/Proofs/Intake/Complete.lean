import Courier.Proofs.Intake

/-!
# Intakes of few payloads

Messages of at most eight payloads never make a group give way. If those of a
payload that is not critical come once each, a payload is returned with the last
of its messages, and only then, so that nothing opens its group again (`Tidy`).
-/

namespace Courier.Intake

open Assembly (Recent)

/-- No group gave way or is left of a payload that was returned, and all
contents come from the messages taken in. -/
structure Tidy (payloads : List Payload) (s : Intake) : Prop where
  givenUp_eq : s.givenUp = []
  source : ∀ g ∈ s.assembly.groups, ∃ u ∈ s.numbers, g.id = UInt8.ofNat u ∧ u ∉ s.returned ∧
    ∀ p, payloads[u]? = some p → ∀ m ∈ p.pieces u, g.Has m → (m, u) ∈ s.taken
  filled : ∀ u ∈ s.returned, ∀ p, payloads[u]? = some p → ∀ m ∈ p.pieces u, (m, u) ∈ s.taken
  nodup : s.returned.Nodup

def Within (base u : Nat) : Prop := base ≤ u ∧ u < base + Assembly.maxGroups

section
variable {payloads : List Payload} {s : Intake} {p : Payload} {m : Message} {base top n u v : Nat}

theorem Within.recent (h : Within base u) : Recent (base + 7) u := by
  obtain ⟨hle, hlt⟩ := h
  simp only [Assembly.maxGroups] at hlt
  exact ⟨by omega, by omega⟩

theorem Within.eq_of_id (hu : Within base u) (hv : Within base v)
    (h : UInt8.ofNat u = UInt8.ofNat v) : u = v :=
  hu.recent.eq_of_id hv.recent h

theorem tidy_empty (payloads : List Payload) : ({} : Intake).Tidy payloads where
  givenUp_eq := rfl
  source _ hg := nomatch hg
  filled _ hu := nomatch hu
  nodup := List.nodup_nil

-- ---------------------------------------------------------------------------
-- Taking in one message
-- ---------------------------------------------------------------------------

theorem numbers_take (s : Intake) (x : Message × Nat) :
    (s.take x).numbers = s.numbers ++ [x.2] := by
  simp [numbers, take]

theorem returned_take (s : Intake) (x : Message × Nat) :
    (s.take x).returned = s.returned ++ (s.assembly.accept x.1).1.toList.map fun _ => x.2 := by
  simp [returned, take, Function.comp_def]

/-- A message that comes for the first time, or one that may come again. -/
def Fresh (s : Intake) (x : Message × Nat) : Prop := x.1.critical = false → x ∉ s.taken

section
variable (h : Taking payloads top s m n p) (ht : s.Tidy payloads)
  (hrange : ∀ u ∈ s.numbers ++ [n], Within base u) (hfresh : s.Fresh (m, n))

include h ht

theorem Taking.resent (hfresh : s.Fresh (m, n)) (hreturned : n ∈ s.returned) :
    m.critical = true ∧ m.fragment ∈ (s.assembly.observe m.fragment).delivered := by
  have hc : m.critical = true := by
    by_contra hc
    exact hfresh (by simpa using hc) (ht.filled n hreturned p h.payload_eq m h.mem)
  refine ⟨hc, ?_⟩
  rw [h.fragment_eq]
  rw [Payload.critical_of_mem h.mem] at hc
  exact h.fragment_eq ▸ h.sound.recalled n hreturned p h.payload_eq hc h.recent

theorem Taking.nodup (hfresh : s.Fresh (m, n)) : (s.take (m, n)).returned.Nodup := by
  rw [returned_take]
  cases hd : (s.assembly.accept m).1 with
  | none => simpa using ht.nodup
  | some d =>
    have hnot : n ∉ s.returned := by
      intro hreturned
      obtain ⟨hc, hmem⟩ := h.resent ht hfresh hreturned
      exact (h.accepted.delivery_eq d hd).2 hc hmem
    simpa [List.nodup_append] using ⟨ht.nodup, fun u hu hsame => hnot (hsame ▸ hu)⟩

include hrange

theorem Taking.taken_of_holds {m' : Message} (hm' : m' ∈ p.pieces n)
    (hholds : (s.assembly.observe m.fragment).Holds m.fragment m') : (m', n) ∈ s.taken := by
  obtain ⟨g, hg, hid, hhas⟩ := hholds
  obtain ⟨u, hu, hgid, -, hsource⟩ := ht.source g (s.assembly.groups_observe _ hg)
  obtain rfl : u = n := (hrange u (by simp [hu])).eq_of_id (hrange n (by simp))
    (hgid.symm.trans (hid.trans h.fragment_eq))
  exact hsource p h.payload_eq m' hm' hhas

theorem Taking.hasRoom : (s.assembly.observe m.fragment).HasRoom m.fragment := by
  by_cases hid : m.fragment ∈ (s.assembly.observe m.fragment).ids
  · exact .inr hid
  · left
    have hnd : (m.fragment :: (s.assembly.observe m.fragment).ids).Nodup :=
      List.nodup_cons.mpr ⟨hid, h.sound.nodup⟩
    have hsubset : (m.fragment :: (s.assembly.observe m.fragment).ids) ⊆
        (List.range Assembly.maxGroups).map fun k => UInt8.ofNat (base + k) := by
      have hwithin {u : Nat} (hu : Within base u) :
          UInt8.ofNat u ∈ (List.range Assembly.maxGroups).map fun k => UInt8.ofNat (base + k) := by
        obtain ⟨hle, hlt⟩ := hu
        exact List.mem_map.mpr
          ⟨u - base, List.mem_range.mpr (by omega), by rw [Nat.add_sub_cancel' hle]⟩
      intro id hmem
      rcases List.mem_cons.mp hmem with rfl | hmem
      · rw [h.fragment_eq]
        exact hwithin (hrange n (by simp))
      · obtain ⟨g, hg, rfl⟩ := List.mem_map.mp hmem
        obtain ⟨u, hu, hgid, -⟩ := ht.source g (s.assembly.groups_observe _ hg)
        rw [hgid]
        exact hwithin (hrange u (by simp [hu]))
    have hle := hnd.length_le_of_subset hsubset
    simp only [List.length_cons, List.length_map, List.length_range, Assembly.ids] at hle
    omega

theorem Taking.givenUp_eq : (s.take (m, n)).givenUp = [] := by
  have hkept := h.traced.kept (h.hasRoom ht hrange)
  have hevicted : s.assembly.evicted m = [] := by
    refine List.filter_eq_nil_iff.mpr fun id hid => ?_
    obtain ⟨g, hg, rfl⟩ := List.mem_map.mp hid
    by_cases hsame : g.id = m.fragment
    · simp [hsame]
    · have hmem : g.id ∈ (s.assembly.accept m).2.ids := List.mem_map.mpr ⟨g, hkept g hg hsame, rfl⟩
      simp [hmem]
  simp [Intake.take, hevicted, ht.givenUp_eq]

include hfresh

theorem Taking.source {g : Group} (hg : g ∈ (s.assembly.accept m).2.groups) :
    ∃ u ∈ (s.take (m, n)).numbers, g.id = UInt8.ofNat u ∧ u ∉ (s.take (m, n)).returned ∧
      ∀ q, payloads[u]? = some q → ∀ m' ∈ q.pieces u, g.Has m' →
      (m', u) ∈ (s.take (m, n)).taken := by
  have hn := hrange n (by simp)
  rw [numbers_take]
  simp only [mem_returned_take, not_or, not_and]
  have hold (hg : g ∈ s.assembly.groups) (hne : g.id ≠ m.fragment) :
      ∃ u ∈ s.numbers ++ [n], g.id = UInt8.ofNat u ∧
      (u ∉ s.returned ∧ ((s.assembly.accept m).1.isSome = true → u ≠ n)) ∧
      ∀ q, payloads[u]? = some q → ∀ m' ∈ q.pieces u, g.Has m' →
      (m', u) ∈ (s.take (m, n)).taken := by
    obtain ⟨u, hu, hid, hreturned, hsource⟩ := ht.source g hg
    refine ⟨u, by simp [hu], hid, ⟨hreturned, fun _ hsame => hne ?_⟩, ?_⟩
    · rw [hid, hsame, h.fragment_eq]
    · exact fun q hq m' hm' hhas => List.mem_append_left _ (hsource q hq m' hm' hhas)
  rcases h.traced.source g hg with ⟨hg, hne⟩ | ⟨hnone, hid, hsource⟩
  · exact hold (s.assembly.groups_observe _ hg) hne
  · refine ⟨n, by simp, hid.trans h.fragment_eq, ⟨?_, by simp [hnone]⟩, ?_⟩
    · -- a payload that was returned has no group any more
      intro hreturned
      obtain ⟨hc, hmem⟩ := h.resent ht hfresh hreturned
      rw [h.traced.resent hc hmem] at hg
      obtain ⟨u, hu, hgid, hnot, -⟩ := ht.source g (s.assembly.groups_observe _ hg)
      obtain rfl : u = n :=
        (hrange u (by simp [hu])).eq_of_id hn (hgid.symm.trans (hid.trans h.fragment_eq))
      exact hnot hreturned
    · intro q hq m' hm' hhas
      rw [h.payload_eq] at hq
      obtain rfl := Option.some.inj hq
      rcases hsource m' hm' hhas with rfl | hholds
      · exact List.mem_append_right _ (List.mem_singleton_self _)
      · exact List.mem_append_left _ (h.taken_of_holds ht hrange hm' hholds)

theorem Taking.tidy : (s.take (m, n)).Tidy payloads := by
  refine ⟨h.givenUp_eq ht hrange, fun g hg => h.source ht hrange hfresh hg, ?_, h.nodup ht hfresh⟩
  intro u hu q hq m' hm'
  rcases mem_returned_take.mp hu with hu | ⟨hsome, rfl⟩
  · exact List.mem_append_left _ (ht.filled u hu q hq m' hm')
  · rw [h.payload_eq] at hq
    obtain rfl := Option.some.inj hq
    rcases h.traced.filled hsome m' hm' with rfl | hholds
    · exact List.mem_append_right _ (List.mem_singleton_self _)
    · exact List.mem_append_left _ (h.taken_of_holds ht hrange hm' hholds)

end

-- ---------------------------------------------------------------------------
-- Taking in all messages
-- ---------------------------------------------------------------------------

theorem inReach_of_within {numbers : List Nat} (h : ∀ u ∈ numbers, Within base u) :
    InReach numbers := by
  intro k hk top htop
  obtain ⟨hle, hlt⟩ := h _ (List.getElem_mem hk)
  obtain ⟨hle', hlt'⟩ := h top (List.mem_of_mem_take (List.max?_eq_some_iff.mp htop).1)
  simp only [Assembly.maxGroups] at hlt hlt'
  omega

section
variable (hsendable : ∀ p ∈ payloads, p.Sendable) {xs : List (Message × Nat)}
  (hcargo : ∀ x ∈ xs, Payload.Belongs payloads x) (hrange : ∀ x ∈ xs, Within base x.2)
  (honce : ∀ x ∈ xs, x.1.critical = false → xs.count x ≤ 1)

include hsendable hcargo hrange honce

theorem tidy_takeAll : (takeAll xs).Tidy payloads := by
  induction xs using List.reverseRecOn with
  | nil => exact tidy_empty payloads
  | append_singleton xs x ih =>
    obtain ⟨m, n⟩ := x
    have hbefore : ∀ y ∈ xs, y ∈ xs ++ [(m, n)] := fun y hy => List.mem_append_left _ hy
    have ht :=
      ih (fun y hy => hcargo y (hbefore y hy)) (fun y hy => hrange y (hbefore y hy)) fun y hy hc =>
      Nat.le_trans ((List.sublist_append_left xs _).count_le y) (honce y (hbefore y hy) hc)
    have hwithin : ∀ u ∈ (xs ++ [(m, n)]).map (·.2), Within base u := by
      intro u hu
      obtain ⟨y, hy, rfl⟩ := List.mem_map.mp hu
      exact hrange y hy
    have hnumbers : ∀ u ∈ xs.map (·.2), Within base u := fun u hu => hwithin u (by simp_all)
    obtain ⟨top, p, -, htaking⟩ :=
      exists_taking hsendable (hcargo (m, n) (by simp)) (inReach_of_within hwithin)
      (sound_takeAll hsendable (fun y hy => hcargo y (hbefore y hy)) (inReach_of_within hnumbers))
    rw [takeAll_append]
    have hrange : ∀ u ∈ (takeAll xs).numbers ++ [n], Within base u := by
      rw [numbers, taken_takeAll]
      simpa using hwithin
    refine htaking.tidy ht hrange fun hc hmem => ?_
    rw [taken_takeAll] at hmem
    have hcount := honce (m, n) (by simp) hc
    have hpos := List.count_pos_iff.mpr hmem
    rw [List.count_append, List.count_singleton_self] at hcount
    omega

variable (hall : ∀ u p, Within base u → payloads[u]? = some p → ∀ m ∈ p.pieces u, (m, u) ∈ xs)

include hall

theorem mem_returned_iff : u ∈ (takeAll xs).returned ↔ Within base u ∧ u < payloads.length := by
  have htidy := tidy_takeAll hsendable hcargo hrange honce
  have hreach : InReach (xs.map (·.2)) := inReach_of_within (List.forall_mem_map.mpr hrange)
  constructor
  · intro hu
    obtain ⟨x, hx, rfl⟩ := List.mem_map.mp hu
    obtain ⟨p, hp, -⟩ := takeAll_faithful hsendable hcargo hreach x hx
    obtain ⟨m, hm⟩ := p.exists_piece x.2
    have htaken := htidy.filled x.2 hu p hp m hm
    rw [taken_takeAll] at htaken
    exact ⟨hrange _ htaken, (List.getElem?_eq_some_iff.mp hp).1⟩
  · rintro ⟨hwithin, hlt⟩
    have hp := List.getElem?_eq_getElem hlt
    exact mem_returned_takeAll hsendable hcargo hreach hp (by simp [htidy.givenUp_eq])
      (hall u _ hwithin hp)

theorem returned_perm (hle : payloads.length ≤ base + Assembly.maxGroups) :
    (takeAll xs).returned.Perm ((List.range (payloads.length - base)).map (base + ·)) := by
  have htidy := tidy_takeAll hsendable hcargo hrange honce
  refine (List.perm_ext_iff_of_nodup htidy.nodup
    (List.nodup_range.map fun _ _ => Nat.add_left_cancel)).mpr
    fun u => ?_
  rw [mem_returned_iff hsendable hcargo hrange honce hall, List.mem_map, Within]
  simp only [List.mem_range]
  constructor
  · rintro ⟨⟨hbase, -⟩, hlt⟩
    exact ⟨u - base, by omega, by omega⟩
  · rintro ⟨k, hk, rfl⟩
    omega

theorem groups_takeAll : (takeAll xs).assembly.groups = [] := by
  have htidy := tidy_takeAll hsendable hcargo hrange honce
  refine List.eq_nil_iff_forall_not_mem.mpr fun g hg => ?_
  obtain ⟨u, hu, -, hnot, -⟩ := htidy.source g hg
  rw [numbers, taken_takeAll] at hu
  obtain ⟨x, hx, rfl⟩ := List.mem_map.mp hu
  obtain ⟨p, hp, -⟩ := hcargo x hx
  exact hnot ((mem_returned_iff hsendable hcargo hrange honce hall).mpr
    ⟨hrange x hx, (List.getElem?_eq_some_iff.mp hp).1⟩)

end

end

end Courier.Intake
