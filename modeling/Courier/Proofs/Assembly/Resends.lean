import Mathlib.Data.List.Induction
import Courier.Proofs.Assembly.Accept

/-!
# Resends and recycled ids

A sender counts its payloads, and an id is the count modulo 256, from wherever
it started. While every number stays within 127 of the largest one seen, the
ids that an assembly remembers belong to numbers less than 256 behind that one
(`Remembers`): a critical payload that arrives again is recognised, and a new
one is never taken for an old one that had its id.
-/

namespace Courier.Assembly

/-- What is returned for a row of messages, with the number of the message that completed it. -/
def returns : Assembly → List (Message × Int) → List (Delivery × Int)
  | _, [] => []
  | a, x :: rest => ((a.accept x.1).1.toList.map fun d => (d, x.2)) ++ (a.accept x.1).2.returns rest

/-- Messages with the numbers of their payloads, each within 127 of the largest one before it. -/
structure Numbered (xs : List (Message × Int)) : Prop where
  fragment_eq : ∀ x ∈ xs, x.1.fragment = UInt8.ofInt x.2
  near : ∀ k (_ : k < xs.length), ∀ top ∈ ((xs.take k).map (·.2)).max?,
    xs[k].2 ≤ top + 127 ∧ top ≤ xs[k].2 + 127

/-- Numbers that their ids tell apart when `top` is the largest. -/
def Current (top u : Int) : Prop := u ≤ top ∧ top < u + 256

section
variable {a after : Assembly} {m : Message} {d? : Option Delivery} {xs ys : List (Message × Int)}
  {top n u v : Int} {id : UInt8}

theorem map_fst_returns (a : Assembly) (xs : List (Message × Int)) :
    (a.returns xs).map (·.1) = (a.acceptAll (xs.map (·.1))).1 := by
  induction xs generalizing a with
  | nil => rfl
  | cons x rest ih => simp [returns, acceptAll, ih, Function.comp_def]

theorem returns_append (a : Assembly) (xs ys : List (Message × Int)) :
    a.returns (xs ++ ys) = a.returns xs ++ (a.acceptAll (xs.map (·.1))).2.returns ys := by
  induction xs generalizing a with
  | nil => rfl
  | cons x rest ih => simp [returns, acceptAll, ih]

theorem map_snd_returns_subset (a : Assembly) (xs : List (Message × Int)) :
    (a.returns xs).map (·.2) ⊆ xs.map (·.2) := by
  induction xs generalizing a with
  | nil => exact List.nil_subset _
  | cons x rest ih =>
    intro n hn
    simp only [returns, List.map_append, List.mem_append, List.map_map, List.mem_map] at hn
    rcases hn with ⟨d, -, rfl⟩ | hn
    · exact List.mem_cons_self
    · exact List.mem_cons_of_mem _ (ih _ (List.mem_map.mpr hn))

theorem acceptAll_concat (a : Assembly) (ms : List Message) (m : Message) :
    (a.acceptAll (ms ++ [m])).2 = ((a.acceptAll ms).2.accept m).2 := by
  induction ms generalizing a with
  | nil => rfl
  | cons _ _ ih => simp [acceptAll, ih]

-- ---------------------------------------------------------------------------
-- Ids of numbers of any sign
-- ---------------------------------------------------------------------------

theorem ofInt_eq {k : Nat} (h : 0 ≤ u + 256 * k) :
    UInt8.ofInt u = UInt8.ofNat (u + 256 * k).toNat := by
  rw [← UInt8.toNat_inj, UInt8.ofInt, UInt8.toNat_ofNat', UInt8.toNat_ofNat']
  omega

theorem Current.eq_of_id (hu : Current top u) (hv : Current top v)
    (h : UInt8.ofInt u = UInt8.ofInt v) : u = v := by
  obtain ⟨hu, hu'⟩ := hu
  obtain ⟨hv, hv'⟩ := hv
  have hmod := congrArg UInt8.toNat h
  simp only [UInt8.ofInt, UInt8.toNat_ofNat'] at hmod
  omega

/-- Observing an id that is within reach forgets the numbers that are not current any more. -/
theorem observe_current (hnewest : a.newest = some (UInt8.ofInt top)) (hle : n ≤ top + 127)
    (hge : top ≤ n + 127) :
    (a.observe (UInt8.ofInt n)).newest = some (UInt8.ofInt (max top n)) ∧
      ∃ stays : UInt8 → Bool, (a.observe (UInt8.ofInt n)).delivered = a.delivered.filter stays ∧
        ∀ u, Current top u → (stays (UInt8.ofInt u) = true ↔ Current (max top n) u) := by
  -- far enough up, all numbers that matter are natural ones
  obtain ⟨k, hk⟩ : ∃ k : Nat, 256 ≤ top + 256 * k ∧ 0 ≤ n + 256 * k :=
    ⟨top.natAbs + n.natAbs + 1, by omega⟩
  rw [ofInt_eq (k := k) (by omega)] at hnewest
  have hle' : (n + 256 * k).toNat ≤ (top + 256 * k).toNat + 127 := by omega
  have hge' : (top + 256 * k).toNat ≤ (n + 256 * k).toNat + 127 := by omega
  obtain ⟨stays, hnewest', -, hdelivered, hstays⟩ := observe_spec hnewest hle' hge'
  rw [← ofInt_eq hk.2] at hnewest' hdelivered
  refine ⟨?_, stays, hdelivered, ?_⟩
  · rw [hnewest', ofInt_eq (u := max top n) (k := k) (by omega)]
    congr 2
    omega
  · rintro u ⟨hu, hu'⟩
    have hcases := hstays (u + 256 * k).toNat ⟨by omega, by omega⟩
    rw [← ofInt_eq (by omega)] at hcases
    simp only [hcases, Recent, Current]
    omega

-- ---------------------------------------------------------------------------
-- One message
-- ---------------------------------------------------------------------------

/-- What any message does to the ids once its own was observed, and what it returns. -/
structure Marks (a after : Assembly) (m : Message) (d? : Option Delivery) : Prop where
  newest_eq : after.newest = a.newest
  critical : m.critical = true → ∀ d, d? = some d → d.critical = true ∧ m.fragment ∉ a.delivered
  delivered_eq : after.delivered =
    if d?.any (·.critical) then m.fragment :: a.delivered.filter (· != m.fragment) else a.delivered

@[simp] theorem newest_openGroup (a : Assembly) (id : UInt8) :
    (a.openGroup id).newest = a.newest := by
  unfold openGroup
  split
  · rfl
  · split <;> rfl

@[simp] theorem delivered_openGroup (a : Assembly) (id : UInt8) :
    (a.openGroup id).delivered = a.delivered := by
  unfold openGroup
  split
  · rfl
  · split <;> rfl

theorem id_find? (a : Assembly) (id : UInt8) : ((a.find? id).getD { id }).id = id := by
  cases hfind : a.find? id with
  | none => rfl
  | some g => simpa using List.find?_some hfind

theorem Marks.none (hnewest : after.newest = a.newest)
    (hdelivered : after.delivered = a.delivered) : Marks a after m none :=
  ⟨hnewest, by simp, by simpa using hdelivered⟩

theorem Marks.complete {b : Assembly} {d : Delivery} (hnewest : b.newest = a.newest)
    (hdelivered : b.delivered = a.delivered) (hfragment : d.fragment = m.fragment)
    (hcritical : m.critical = true → d.critical = true ∧ m.fragment ∉ a.delivered) :
    Marks a (b.complete d) m (some d) := by
  refine ⟨by simpa using hnewest, ?_, ?_⟩
  · rintro hm _ ⟨⟩
    exact hcritical hm
  · simp [delivered_complete, hdelivered, hfragment]

theorem Marks.update {g : Group} (hid : g.id = m.fragment)
    (hcritical : m.critical = true → g.critical = true ∧ m.fragment ∉ a.delivered) :
    Marks a ((a.openGroup m.fragment).update g).2 m ((a.openGroup m.fragment).update g).1 := by
  unfold Assembly.update
  split
  · exact .complete (by simp) (by simp) hid hcritical
  · exact .none (by simp [setGroup]) (by simp [setGroup])

theorem marks_acceptPart (hnew : m.critical = true → m.fragment ∉ a.delivered) :
    Marks a (a.acceptPart m).2 m (a.acceptPart m).1 := by
  simp only [acceptPart]
  split
  · exact .none (by simp) (by simp)
  · refine .update ?_ fun hm => ⟨?_, hnew hm⟩
    · simp [Group.addPart, id_find?]
    · simp [Group.addPart, hm]

theorem marks_acceptAnnouncement (hnew : m.critical = true → m.fragment ∉ a.delivered) :
    Marks a (a.acceptAnnouncement m).2 m (a.acceptAnnouncement m).1 := by
  simp only [acceptAnnouncement]
  split
  · exact .none rfl rfl
  · split
    · exact .none rfl rfl
    · refine .update ?_ fun hm => ⟨?_, hnew hm⟩
      · simp only [Group.announce]
        split <;> simp [id_find?]
      · simp [Group.announce, hm]

theorem marks_accept (a : Assembly) (m : Message) :
    Marks (a.observe m.fragment) (a.accept m).2 m (a.accept m).1 := by
  simp only [accept]
  split
  · exact .none rfl rfl
  next hseen =>
    have hnew : m.critical = true → m.fragment ∉ (a.observe m.fragment).delivered := by
      simpa using hseen
    split
    · exact marks_acceptPart hnew
    · split
      · exact marks_acceptAnnouncement hnew
      · exact .complete rfl rfl rfl fun hm => ⟨hm, hnew hm⟩

theorem accept_whole (horder : m.order = 0) (hkind : m.kind ≠ .announcement)
    (hnew : m.fragment ∉ (a.observe m.fragment).delivered) :
    (a.accept m).1 =
      some { kind := m.kind, critical := m.critical, fragment := m.fragment, data := m.data } := by
  simp [accept, horder, hkind, hnew]

-- ---------------------------------------------------------------------------
-- A row of messages
-- ---------------------------------------------------------------------------

/-- What the ids in an assembly are known to stand for when `top` is the largest
number: everything remembered was returned and is current, and of payload `u` all
that is current is remembered. -/
structure Remembers (top u : Int) (returned : List Int) (a : Assembly) : Prop where
  newest_eq : a.newest = some (UInt8.ofInt top)
  returned_le : ∀ v ∈ returned, v ≤ top
  remembered : ∀ id ∈ a.delivered, ∃ v ∈ returned, id = UInt8.ofInt v ∧ Current top v
  recalled : u ∈ returned → Current top u → UInt8.ofInt u ∈ a.delivered
  once : returned.count u ≤ 1

theorem remembers_first (n u : Int) :
    Remembers n u [] (({} : Assembly).observe (UInt8.ofInt n)) where
  newest_eq := rfl
  returned_le _ hv := nomatch hv
  remembered _ hid := nomatch hid
  recalled hu := nomatch hu
  once := Nat.zero_le 1

section
variable {returned : List Int}

theorem Remembers.observe (h : Remembers top u returned a) (hle : n ≤ top + 127)
    (hge : top ≤ n + 127) : Remembers (max top n) u returned (a.observe (UInt8.ofInt n)) := by
  obtain ⟨hnewest, stays, hdelivered, hstays⟩ := observe_current h.newest_eq hle hge
  refine ⟨hnewest, ?_, ?_, ?_, h.once⟩
  · intro v hv
    have := h.returned_le v hv
    omega
  · intro id hid
    rw [hdelivered, List.mem_filter] at hid
    obtain ⟨v, hv, rfl, hcurrent⟩ := h.remembered id hid.1
    exact ⟨v, hv, rfl, (hstays v hcurrent).mp hid.2⟩
  · intro hu hcurrent
    have hbefore : Current top u := ⟨h.returned_le u hu, by obtain ⟨-, h⟩ := hcurrent; omega⟩
    rw [hdelivered, List.mem_filter]
    exact ⟨h.recalled hu hbefore, (hstays u hbefore).mpr hcurrent⟩

theorem Remembers.mem_returned (h : Remembers top u returned a) (hn : Current top n)
    (hid : UInt8.ofInt n ∈ a.delivered) : n ∈ returned := by
  obtain ⟨v, hv, hsame, hcurrent⟩ := h.remembered _ hid
  rwa [hn.eq_of_id hcurrent hsame]

theorem Remembers.accept (h : Remembers top u returned a) (hn : Current top n)
    (hfragment : m.fragment = UInt8.ofInt n) (hc : n = u → m.critical = true)
    (hmarks : Marks a after m d?) :
    Remembers top u (returned ++ d?.toList.map fun _ => n) after := by
  cases d? with
  | none =>
    have hdelivered : after.delivered = a.delivered := by simpa using hmarks.delivered_eq
    simp only [Option.toList_none, List.map_nil, List.append_nil]
    exact ⟨hmarks.newest_eq.trans h.newest_eq, h.returned_le,
      by rw [hdelivered]; exact h.remembered, by rw [hdelivered]; exact h.recalled, h.once⟩
  | some d =>
    have hdelivered := hmarks.delivered_eq
    simp only [Option.any_some, hfragment] at hdelivered
    simp only [Option.toList_some, List.map_cons, List.map_nil]
    refine ⟨hmarks.newest_eq.trans h.newest_eq, ?_, ?_, ?_, ?_⟩
    · intro v hv
      rcases List.mem_append.mp hv with hv | hv
      · exact h.returned_le v hv
      · rw [List.mem_singleton.mp hv]
        exact hn.1
    · intro id hid
      have hcases : id = UInt8.ofInt n ∨ id ∈ a.delivered := by
        rw [hdelivered] at hid
        split at hid
        · exact (List.mem_cons.mp hid).imp_right fun hid => (List.mem_filter.mp hid).1
        · exact .inr hid
      rcases hcases with rfl | hid
      · exact ⟨n, by simp, rfl, hn⟩
      · obtain ⟨v, hv, hsame, hcurrent⟩ := h.remembered id hid
        exact ⟨v, List.mem_append_left _ hv, hsame, hcurrent⟩
    · intro hu hcurrent
      rw [hdelivered]
      by_cases hsame : n = u
      · subst hsame
        simp [(hmarks.critical (hc rfl) d rfl).1]
      · have hold : u ∈ returned := by
          rcases List.mem_append.mp hu with hu | hu
          · exact hu
          · exact absurd (List.mem_singleton.mp hu).symm hsame
        have hother : UInt8.ofInt u ≠ UInt8.ofInt n := fun e => hsame (hn.eq_of_id hcurrent e.symm)
        split
        · simp [h.recalled hold hcurrent, hother]
        · exact h.recalled hold hcurrent
    · rw [List.count_append]
      by_cases hsame : n = u
      · subst hsame
        -- it was not remembered, so it was never returned
        have hnot : n ∉ returned := fun hmem =>
          (hmarks.critical (hc rfl) d rfl).2 (hfragment ▸ h.recalled hmem hn)
        simp [List.count_eq_zero_of_not_mem hnot]
      · simpa [hsame] using h.once

end

theorem Numbered.concat {x : Message × Int} (h : Numbered (xs ++ [x])) :
    Numbered xs ∧ x.1.fragment = UInt8.ofInt x.2 ∧
      ∀ top, (xs.map (·.2)).max? = some top → x.2 ≤ top + 127 ∧ top ≤ x.2 + 127 := by
  refine ⟨⟨fun y hy => h.fragment_eq y (List.mem_append_left _ hy), ?_⟩, h.fragment_eq x (by simp),
    ?_⟩
  · intro k hk top htop
    have hnear := h.near k (by rw [List.length_append]; omega) top
    rw [List.take_append_of_le_length (by omega), List.getElem_append_left hk] at hnear
    exact hnear htop
  · intro top htop
    have hnear := h.near xs.length (by simp) top
    rw [List.take_left, List.getElem_concat_length rfl] at hnear
    exact hnear htop

theorem Numbered.append (h : Numbered (xs ++ ys)) : Numbered xs := by
  induction ys using List.reverseRecOn with
  | nil => simpa using h
  | append_singleton ys y ih =>
    rw [← List.append_assoc] at h
    exact ih h.concat.1

/-- The last of some messages is about to be taken in, and its number is current. -/
theorem Numbered.observed (h : Numbered (xs ++ [(m, n)]))
    (hxs : xs = [] ∨ ∃ top, (xs.map (·.2)).max? = some top ∧
      Remembers top u ((({} : Assembly).returns xs).map (·.2))
        (({} : Assembly).acceptAll (xs.map (·.1))).2) :
    ∃ top, ((xs ++ [(m, n)]).map (·.2)).max? = some top ∧ Current top n ∧
      Remembers top u ((({} : Assembly).returns xs).map (·.2))
        ((({} : Assembly).acceptAll (xs.map (·.1))).2.observe m.fragment) := by
  obtain ⟨-, hfragment, hnear⟩ := h.concat
  rw [hfragment]
  rcases hxs with rfl | ⟨top, htop, hremembers⟩
  · exact ⟨n, rfl, ⟨Int.le_refl n, by omega⟩, remembers_first n u⟩
  · obtain ⟨hle, hge⟩ : n ≤ top + 127 ∧ top ≤ n + 127 := hnear top htop
    refine ⟨max top n, ?_, ⟨by omega, by omega⟩, hremembers.observe hle hge⟩
    obtain ⟨hmem, hmax⟩ := List.max?_eq_some_iff.mp htop
    rw [List.map_append]
    refine List.max?_eq_some_iff.mpr ⟨?_, ?_⟩
    · rcases Int.le_total top n with hn | hn
      · simp [Int.max_eq_right hn]
      · rw [Int.max_eq_left hn]
        exact List.mem_append_left _ hmem
    · intro v hv
      rcases List.mem_append.mp hv with hv | hv
      · have := hmax v hv
        omega
      · rw [List.mem_singleton.mp hv]
        exact Int.le_max_right top n

theorem Numbered.remembers (h : Numbered xs) (hc : ∀ x ∈ xs, x.2 = u → x.1.critical = true) :
    xs = [] ∨ ∃ top, (xs.map (·.2)).max? = some top ∧
      Remembers top u ((({} : Assembly).returns xs).map (·.2))
        (({} : Assembly).acceptAll (xs.map (·.1))).2 := by
  induction xs using List.reverseRecOn with
  | nil => exact .inl rfl
  | append_singleton xs x ih =>
    obtain ⟨m, n⟩ := x
    obtain ⟨hxs, hfragment, -⟩ := h.concat
    obtain ⟨top, htop, hcurrent, hremembers⟩ :=
      h.observed (u := u) (ih hxs fun x hx => hc x (List.mem_append_left _ hx))
    refine .inr ⟨top, htop, ?_⟩
    have hnext := hremembers.accept hcurrent hfragment (hc (m, n) (by simp))
      (marks_accept (({} : Assembly).acceptAll (xs.map (·.1))).2 m)
    rw [returns_append, List.map_append, List.map_append, List.map_singleton, acceptAll_concat]
    simpa [returns, Function.comp_def] using hnext

/-- A critical payload is returned at most once, however often it arrives and
whichever payloads had its id before; one that is a single message is returned
when it arrives for the first time. -/
theorem numbered_returned_once (h : Numbered xs) (hc : ∀ x ∈ xs, x.2 = u → x.1.critical = true) :
    ((({} : Assembly).returns xs).map (·.2)).count u ≤ 1 ∧
      ∀ before m after, xs = before ++ (m, u) :: after → (∀ x ∈ before, x.2 ≠ u) →
        m.order = 0 → m.kind ≠ .announcement →
        ((({} : Assembly).acceptAll (before.map (·.1))).2.accept m).1 =
          some
            { kind := m.kind, critical := m.critical, fragment := m.fragment, data := m.data } := by
  constructor
  · rcases h.remembers hc with rfl | ⟨top, -, hremembers⟩
    · exact Nat.zero_le 1
    · exact hremembers.once
  · rintro before m after rfl hfirst horder hkind
    rw [List.append_cons] at h
    have hnumbered := h.append
    obtain ⟨hbefore, hfragment, -⟩ := hnumbered.concat
    obtain ⟨top, -, hcurrent, hremembers⟩ := hnumbered.observed
      (hbefore.remembers (u := u) fun x hx hsame => absurd hsame (hfirst x hx))
    refine accept_whole horder hkind fun hmem => ?_
    have hreturned := hremembers.mem_returned hcurrent (hfragment ▸ hmem)
    obtain ⟨x, hx, hsame⟩ := List.mem_map.mp (map_snd_returns_subset _ _ hreturned)
    exact hfirst x hx hsame

theorem numbered_returned_once_wrapped :
    let message (id : UInt8) (critical : Bool) (data : Bytes) : Message :=
      { kind := .data, critical, fragment := id, order := 0, data }
    let xs : List (Message × Int) :=
      [(message 253 true [1], -3), (message 253 true [1], -3), (message 120 false [2], 120),
        (message 253 true [1], -3), (message 240 true [3], 240), (message 253 true [4], 253),
        (message 253 true [4], 253)]
    (({} : Assembly).returns xs).map (fun x => (x.1.data, x.2)) =
      [([1], -3), ([2], 120), ([3], 240), ([4], 253)] ∧
      ((({} : Assembly).returns xs).map (·.2)).count 253 ≤ 1 ∧
      ((({} : Assembly).acceptAll ((xs.take 5).map (·.1))).2.accept (message 253 true [4])).1 =
        some { kind := .data, critical := true, fragment := 253, data := [4] } := by
  intro message xs
  have hxs : Numbered xs := ⟨by decide, by decide⟩
  obtain ⟨honce, hfirst⟩ := numbered_returned_once (u := 253) hxs (by decide)
  exact ⟨by decide, honce,
    hfirst (xs.take 5) _ [(message 253 true [4], 253)] rfl (by decide) rfl (by decide)⟩

end

end Courier.Assembly
