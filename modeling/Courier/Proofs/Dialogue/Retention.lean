import Courier.Proofs.Dialogue.Acknowledgement

/-!
# Acknowledged packets stay acknowledged

A report takes the place of the one before unless it is older, and its age is
told by its acknowledgement number alone. Two packets built one after the other
may carry the same number while the later one reports more, so taking them in
in the other order unlearns what the later one said, and a packet that was
acknowledged is reported lost (`acknowledged_lost`). As long as no report unlearns
a packet in this way, it stays acknowledged until its position is used again,
and is never reported lost (`acknowledged_kept`).
-/

namespace Courier

namespace Chronicle

/-- One of the last 32 packets, and held for acknowledged. -/
def Acknowledged (c : Chronicle) (s : Nat) : Prop :=
  s < c.sent.length ∧ c.sent.length ≤ s + 32 ∧
    c.channel.departures.isAcked (Window.index (UInt32.ofNat s)) = true

instance (c : Chronicle) (s : Nat) : Decidable (c.Acknowledged s) :=
  inferInstanceAs (Decidable (_ ∧ _))

/-- No packet that was taken in unlearns what an earlier one with the same
acknowledgement number reported of packet `s`. -/
def Retains (c : Chronicle) (s : Nat) : Prop :=
  c.accepted.Pairwise fun q r => q.packet.header.ack = r.packet.header.ack →
    Window.has q.packet.header.ackBits (UInt32.ofNat s) = true →
    Window.has r.packet.header.ackBits (UInt32.ofNat s) = true

instance (c : Chronicle) (s : Nat) : Decidable (c.Retains s) :=
  inferInstanceAs (Decidable (List.Pairwise _ _))

/-- Reports only grow, and name the newest packet as seen. -/
structure Progress (c : Chronicle) : Prop where
  marked : Window.has c.channel.arrivals.seen c.channel.arrivals.newest = true
  sent_marked : ∀ r ∈ c.sent, Window.has r.packet.header.ackBits r.packet.header.ack = true
  heard_mono : c.sent.Pairwise fun q r => q.heard ⊆ r.heard

section
variable {rule : Chronicle → Action → Prop} {c : Chronicle} {s : Nat}

/-- Only building and accepting a packet touch the two windows. -/
theorem step_cases (c : Chronicle) (a : Action) :
    (∃ now, a = .build now) ∨
      (∃ r size now, a = .receive r size now ∧
        (c.channel.arrivals.record r.sequence).1.accepted = true) ∨
      ((c.step a).channel.departures = c.channel.departures ∧
        (c.step a).channel.arrivals = c.channel.arrivals ∧ (c.step a).sent = c.sent ∧
        (c.step a).accepted = c.accepted) := by
  cases a with
  | settle =>
    obtain ⟨hdepartures, harrivals, -⟩ := c.channel.settle_spec
    exact .inr (.inr ⟨hdepartures, harrivals, rfl, rfl⟩)
  | enqueue p =>
    refine .inr (.inr ?_)
    simp only [step, enqueue]
    split
    · exact ⟨rfl, rfl, rfl, rfl⟩
    · exact ⟨rfl, rfl, rfl, rfl⟩
  | build now => exact .inl ⟨now, rfl⟩
  | receive r size now =>
    cases haccepted : (c.channel.arrivals.record r.sequence).1.accepted with
    | true => exact .inr (.inl ⟨r, size, now, rfl, haccepted⟩)
    | false =>
      obtain ⟨-, hdepartures, harrivals, -⟩ := c.channel.receive_refused r.packet size now haccepted
      refine .inr (.inr ?_)
      rw [step, receive_refused haccepted]
      exact ⟨hdepartures, harrivals, rfl, rfl⟩
  | takeNotices => exact .inr (.inr ⟨rfl, rfl, rfl, rfl⟩)

/-- A packet is reported lost only when its position is about to be used again
and it is not acknowledged. -/
theorem notices_step (c : Chronicle) (a : Action) :
    ∃ new, (c.step a).notices = c.notices ++ new ∧
      ∀ sequence critical, .lost sequence critical ∈ new →
      sequence = c.channel.departures.upcoming - 32 ∧
        Window.has c.channel.departures.acked c.channel.departures.upcoming = false := by
  have hsame {channel : Channel} (hnotices : channel.notices = c.channel.notices) :
      ∃ new, c.taken ++ channel.notices = c.notices ++ new ∧
        ∀ sequence critical, .lost sequence critical ∈ new →
        sequence = c.channel.departures.upcoming - 32 ∧
          Window.has c.channel.departures.acked c.channel.departures.upcoming = false :=
    ⟨[], by rw [hnotices, List.append_nil, notices], by simp⟩
  cases a with
  | settle =>
    obtain ⟨-, -, -, -, hnotices⟩ := c.channel.settle_spec
    refine ⟨(c.channel.outgoing.settle c.channel.departures.upcoming
      c.channel.departures.acked).2.1, ?_, fun sequence critical h => Outgoing.lost_mem_settle h⟩
    show c.taken ++ c.channel.settle.2.notices = _
    rw [hnotices, notices, List.append_assoc]
  | enqueue p =>
    simp only [step, enqueue]
    split
    · exact hsame rfl
    · exact hsame rfl
  | build now => exact hsame rfl
  | receive r size now =>
    obtain ⟨new, hnew, hkind⟩ := c.channel.receive_notices r.packet size now
    have hnotices : (c.receive r size now).notices =
        c.taken ++ (c.channel.receive r.packet size now).2.notices := by
      simp only [receive]
      split
      · rfl
      · rfl
    refine ⟨new, ?_, ?_⟩
    · rw [step, hnotices, hnew, notices, List.append_assoc]
    · intro sequence critical h
      rcases hkind _ h with ⟨e, he⟩ | ⟨e, he⟩
      · cases he
      · cases he
  | takeNotices =>
    refine ⟨[], ?_, by simp⟩
    show (c.taken ++ c.channel.notices) ++ [] = _
    rfl

theorem progress_start (peer : Address) (now : Time) : (start peer now).Progress where
  marked := Window.has_full _
  sent_marked _ hr := nomatch hr
  heard_mono := .nil

theorem Progress.step (h : c.Progress) (hreports : c.Reports) (a : Action) :
    (c.step a).Progress := by
  obtain ⟨hmarked, hsent, hmono⟩ := h
  rcases step_cases c a with ⟨now, rfl⟩ | ⟨r, size, now, rfl, haccepted⟩ | ⟨-, harrivals, hsame, -⟩
  · refine ⟨hmarked, ?_, ?_⟩
    · intro r hr
      rcases List.mem_append.mp hr with hr | hr
      · exact hsent r hr
      · rw [List.mem_singleton.mp hr]
        exact hmarked
    · refine List.pairwise_append.mpr ⟨hmono, List.pairwise_singleton _ _, ?_⟩
      intro q hq r hr
      rw [List.mem_singleton.mp hr]
      exact hreports.heard_subset q hq
  · obtain ⟨-, -, harrivals, -⟩ := c.channel.receive_accepted r.packet size now haccepted
    simp only [Chronicle.step, receive_accepted haccepted]
    refine ⟨?_, hsent, hmono⟩
    rw [harrivals]
    exact Arrivals.marked_record hmarked _
  · refine ⟨?_, ?_, ?_⟩
    · rwa [harrivals]
    · rwa [hsame]
    · rwa [hsame]

theorem Reachable.progress (h : Reachable rule c) : c.Progress := by
  induction h with
  | start peer now => exact progress_start peer now
  | step hreach _ ih => exact ih.step hreach.reports _

theorem Reports.acknowledged_build (h : c.Reports) (now : Time) :
    (c.build now).Acknowledged s ↔ c.Acknowledged s ∧ c.sent.length < s + 32 := by
  have hlength : (c.build now).sent.length = c.sent.length + 1 := by
    simp only [Chronicle.build, List.length_append, List.length_cons, List.length_nil]
  have hacked : (c.build now).channel.departures.isAcked (Window.index (UInt32.ofNat s)) =
      (c.channel.departures.isAcked (Window.index (UInt32.ofNat s)) &&
        !decide (c.sent.length % 32 = s % 32)) := by
    show Window.has
      (c.channel.departures.acked &&& ~~~(Window.bit (Window.index c.channel.departures.upcoming)))
      _ = _
    rw [Window.has_and, Window.has_not, Window.has_bit, Window.toNat_index, Window.toNat_index,
      h.upcoming_eq, UInt32.toNat_ofNat', UInt32.toNat_ofNat', Departures.isAcked]
    congr 3
    rw [eq_iff_iff]
    omega
  simp only [Acknowledged, hlength, hacked, Bool.and_eq_true, Bool.not_eq_true',
    decide_eq_false_iff_not]
  constructor
  · rintro ⟨hs, hrecent, ha, hne⟩
    have : s ≠ c.sent.length := fun e => hne (by rw [e])
    exact ⟨⟨by omega, by omega, ha⟩, by omega⟩
  · rintro ⟨⟨hs, -, ha⟩, hrecent⟩
    exact ⟨by omega, by omega, ha, by omega⟩

end

end Chronicle

namespace Dialogue

section
variable {rule : Chronicle → Action → Prop} {d : Dialogue} {q r : Dispatch} {s : Nat}

/-- The acknowledgement number of a packet stands for the newest one that its
sender had taken in. -/
theorem Reachable.reference (h : d.Reachable rule) (hcount : d.left.sent.length ≤ 2 ^ 30)
    (hr : r ∈ d.right.sent) :
    ∃ reference : Int, -1 ≤ reference ∧ reference < d.left.sent.length ∧
      (r.packet.header.ack.toNat : Int) = reference % 2 ^ 32 ∧
      (∀ s : Nat, s < 2 ^ 32 → UInt32.ofNat s ∈ r.heard → (s : Int) ≤ reference) ∧
      (0 ≤ reference → ∃ s : Nat, s < 2 ^ 32 ∧ reference = s ∧ UInt32.ofNat s ∈ r.heard) := by
  obtain ⟨a, reference, htracks, -, hack, hbits⟩ := h.report hcount hr
  have hle := htracks.neg_one_le
  have hmarked := h.right_reachable.progress.sent_marked r hr
  have hzero := (htracks.seen_iff 0 (by decide)).mp
    (by rwa [show UInt32.ofNat 0 = 0 from rfl, UInt32.sub_zero, ← hack, ← hbits])
  have hnewest (hpos : 0 ≤ reference) : ∃ t ∈ r.heard, (t.toNat : Int) = reference := by
    rcases hzero with hzero | hzero
    · obtain ⟨t, ht, heq⟩ := List.mem_map.mp hzero
      exact ⟨t, ht, by omega⟩
    · omega
  refine ⟨reference, hle, ?_, ?_, ?_, ?_⟩
  · by_cases hpos : 0 ≤ reference
    · obtain ⟨t, ht, heq⟩ := hnewest hpos
      obtain ⟨k, hk, rfl⟩ := h.heard_sent hr ht
      rw [UInt32.toNat_ofNat'] at heq
      omega
    · omega
  · rw [hack]
    exact htracks.newest_eq
  · intro s hs hheard
    exact htracks.le_reference _ ((mem_map_toNat hs).mpr hheard)
  · intro hpos
    obtain ⟨t, ht, heq⟩ := hnewest hpos
    exact ⟨t.toNat, t.toNat_lt, heq.symm, by rwa [UInt32.ofNat_toNat]⟩

/-- Of packets with different acknowledgement numbers the one that is not
behind reports at least what the other one does. -/
theorem Reachable.heard_subset_of_ack (h : d.Reachable rule) (hcount : d.left.sent.length ≤ 2 ^ 30)
    (hq : q ∈ d.right.sent) (hr : r ∈ d.right.sent)
    (hne : q.packet.header.ack ≠ r.packet.header.ack)
    (hbehind : Serial.ahead32 q.packet.header.ack r.packet.header.ack = false) :
    q.heard ⊆ r.heard := by
  obtain ⟨i, hi, rfl⟩ := List.getElem_of_mem hq
  obtain ⟨j, hj, rfl⟩ := List.getElem_of_mem hr
  have hmono := List.pairwise_iff_getElem.mp h.right_reachable.progress.heard_mono
  rcases Nat.lt_trichotomy i j with hij | rfl | hji
  · exact hmono i j hi hj hij
  · exact List.Subset.refl _
  · have hsub := hmono j i hj hi hji
    obtain ⟨x, hx, hxcount, hxack, hxle, -⟩ := h.reference hcount hq
    obtain ⟨y, hy, hycount, hyack, -, hymem⟩ := h.reference hcount hr
    have hyx : y ≤ x := by
      by_cases hpos : 0 ≤ y
      · obtain ⟨s, hs, rfl, hheard⟩ := hymem hpos
        exact hxle s hs (hsub hheard)
      · omega
    have hahead := (Serial.ahead32_iff hxack hyack (by omega) (by omega)).not.mp (by simp [hbehind])
    obtain rfl : x = y := by omega
    have hsame : d.right.sent[i].packet.header.ack = d.right.sent[j].packet.header.ack :=
      UInt32.toNat_inj.mp (by omega)
    exact absurd hsame hne

theorem Reachable.gap_of_heard (h : d.Reachable rule) (hcount : d.left.sent.length ≤ 2 ^ 30)
    (hr : r ∈ d.right.sent) (hs : s < d.left.sent.length) (hrecent : d.left.sent.length ≤ s + 32)
    (hheard : UInt32.ofNat s ∈ r.heard) :
    (d.left.channel.departures.sequence - r.packet.header.ack).toNat < 32 := by
  obtain ⟨x, -, hx, hack, hle, -⟩ := h.reference hcount hr
  have hsx := hle s (by omega) hheard
  have hupcoming := congrArg UInt32.toNat h.left_reachable.reports.upcoming_eq
  rw [Departures.upcoming, UInt32.toNat_add, UInt32.toNat_one, UInt32.toNat_ofNat'] at hupcoming
  have := d.left.channel.departures.sequence.toNat_lt
  rw [UInt32.toNat_sub]
  omega

/-- What a side holds for acknowledged, the report that it applied last says. -/
theorem Reachable.acknowledged_reported (h : d.Reachable rule)
    (hcount : d.left.sent.length ≤ 2 ^ 30) (hacked : d.left.Acknowledged s) :
    ∃ q ∈ d.left.accepted, d.left.channel.departures.lastAck = some q.packet.header.ack ∧
      UInt32.ofNat s ∈ q.heard := by
  induction h with
  | start leftPeer rightPeer leftNow rightNow => exact absurd hacked.1 (Nat.not_lt_zero _)
  | @left d a hreach _ hgenuine ih =>
    have ih := ih (Nat.le_trans (d.left.sent_prefix_step a).length_le hcount)
    rcases d.left.step_cases a with ⟨now, rfl⟩ | ⟨r, size, now, rfl, haccepted⟩
      | ⟨hsame, -, hsent, htaken⟩
    · exact ih ((hreach.left_reachable.reports.acknowledged_build now).mp hacked).1
    · obtain ⟨-, hdepartures, -⟩ := d.left.channel.receive_accepted r.packet size now haccepted
      obtain ⟨hs, hrecent, ha⟩ := hacked
      simp only [Chronicle.step, Chronicle.receive_accepted haccepted,
        hdepartures] at hs hrecent ha hcount ⊢
      rcases d.left.channel.departures.acknowledge_replaces r.packet.header.ack
        r.packet.header.ackBits now with
        hold | ⟨hlast, -, ⟨-, hzero⟩ | ⟨hgap, hreported⟩⟩
      · rw [hold] at ha ⊢
        obtain ⟨q, hq, hrest⟩ := ih ⟨hs, hrecent, ha⟩
        exact ⟨q, List.mem_append_left _ hq, hrest⟩
      · rw [Departures.isAcked, hzero, Window.has_zero] at ha
        cases ha
      · rw [Departures.isAcked, hreported, Window.has_index,
          hreach.reported_iff hcount hgenuine hgap hs hrecent]
          at ha
        exact ⟨r, by simp, hlast, ha⟩
    · simp only [Chronicle.Acknowledged, hsame, hsent] at hacked
      simp only [hsame, htaken]
      exact ih hacked
  | right _ _ _ ih => exact ih hcount hacked

theorem Reachable.kept_receive (h : d.Reachable rule) (hcount : d.left.sent.length ≤ 2 ^ 30)
    (hr : r ∈ d.right.sent)
    (haccepted : (d.left.channel.arrivals.record r.sequence).1.accepted = true) {size : Nat}
    {now : Time} (hretains : (d.left.receive r size now).Retains s)
    (hacked : d.left.Acknowledged s) : (d.left.receive r size now).Acknowledged s := by
  obtain ⟨-, hdepartures, -⟩ := d.left.channel.receive_accepted r.packet size now haccepted
  obtain ⟨q, hq, hlast, hheard⟩ := h.acknowledged_reported hcount hacked
  obtain ⟨hs, hrecent, ha⟩ := hacked
  have hqsent := h.accepted_subset hq
  have hqgap := h.gap_of_heard hcount hqsent hs hrecent hheard
  simp only [Chronicle.Retains, Chronicle.Acknowledged, Chronicle.receive_accepted haccepted,
    hdepartures]
    at hretains ⊢
  refine ⟨hs, hrecent, ?_⟩
  rcases d.left.channel.departures.acknowledge_replaces r.packet.header.ack r.packet.header.ackBits
    now with
    hold | ⟨-, hnot, hcases⟩
  · rwa [hold]
  · have hreported : (d.left.channel.departures.sequence - r.packet.header.ack).toNat < 32 ∧
        Window.has (d.left.channel.departures.reported r.packet.header.ack r.packet.header.ackBits)
          (UInt32.ofNat s) = true := by
      by_cases hsame : q.packet.header.ack = r.packet.header.ack
      · have hbit := (h.reported_iff hcount hqsent hqgap hs hrecent).mpr hheard
        rw [Departures.reported, Window.has_and, Bool.and_eq_true] at hbit
        have hkeeps :=
          (List.pairwise_append.mp hretains).2.2 q hq r (List.mem_singleton_self _) hsame hbit.1
        rw [← hsame, Departures.reported, Window.has_and, Bool.and_eq_true]
        exact ⟨hqgap, hkeeps, hbit.2⟩
      · have hmem := h.heard_subset_of_ack hcount hqsent hr hsame (hnot _ hlast) hheard
        have hgap := h.gap_of_heard hcount hr hs hrecent hmem
        exact ⟨hgap, (h.reported_iff hcount hr hgap hs hrecent).mpr hmem⟩
    rcases hcases with ⟨hgap, -⟩ | ⟨-, hreplaced⟩
    · exact absurd hreported.1 (Nat.not_lt.mpr hgap)
    · rw [Departures.isAcked, hreplaced, Window.has_index]
      exact hreported.2

/-- A packet stays acknowledged until another one takes over its position. -/
theorem Reachable.kept_step (h : d.Reachable rule) (hcount : d.left.sent.length ≤ 2 ^ 30)
    {a : Action} (hgenuine : Genuine d.right a) (hretains : (d.left.step a).Retains s)
    (hacked : d.left.Acknowledged s) (hrecent : (d.left.step a).sent.length ≤ s + 32) :
    (d.left.step a).Acknowledged s := by
  rcases d.left.step_cases a with ⟨now, rfl⟩ | ⟨r, size, now, rfl, haccepted⟩ | ⟨hsame, -, hsent, -⟩
  · refine (h.left_reachable.reports.acknowledged_build now).mpr ⟨hacked, ?_⟩
    rwa [Chronicle.step, Chronicle.build, List.length_append, List.length_singleton,
      Nat.succ_le_iff] at hrecent
  · exact h.kept_receive hcount hgenuine haccepted hretains hacked
  · simpa only [Chronicle.Acknowledged, hsame, hsent] using hacked

theorem Reachable.not_lost_step (h : d.Reachable rule) (hcount : d.left.sent.length ≤ 2 ^ 30)
    (a : Action) (hs : s < d.left.sent.length)
    (hacked : d.left.sent.length ≤ s + 32 → d.left.Acknowledged s) :
    ∃ new, (d.left.step a).notices = d.left.notices ++ new ∧
      ∀ critical, .lost (UInt32.ofNat s) critical ∉ new := by
  obtain ⟨new, hnew, hlost⟩ := d.left.notices_step a
  refine ⟨new, hnew, ?_⟩
  intro critical hmem
  obtain ⟨hsequence, hbit⟩ := hlost _ _ hmem
  have hsmall := Nat.lt_of_lt_of_le hs hcount
  have hsequence := congrArg UInt32.toNat hsequence
  rw [h.left_reachable.reports.upcoming_eq, UInt32.toNat_sub, UInt32.toNat_ofNat',
    UInt32.toNat_ofNat',
    show (32 : UInt32).toNat = 32 from rfl] at hsequence
  obtain ⟨-, -, hset⟩ := hacked (by omega)
  have hposition : (UInt32.ofNat s).toNat % 32 = d.left.channel.departures.upcoming.toNat % 32 := by
    rw [h.left_reachable.reports.upcoming_eq, UInt32.toNat_ofNat', UInt32.toNat_ofNat']
    omega
  rw [Departures.isAcked, Window.has_index, Window.has_congr hposition, hbit] at hset
  cases hset

/-- A packet that is acknowledged stays so until its position is used again, and
is never reported lost, as long as no packet taken in unlearns it. -/
theorem acknowledged_kept {e : Dialogue} (h : d.Reachable Chronicle.Roomy)
    (hleads : d.Leads Chronicle.Roomy e) (hcount : e.left.sent.length ≤ 2 ^ 30)
    (hretains : e.left.Retains s) (hacked : d.left.Acknowledged s) :
    (e.left.sent.length ≤ s + 32 → e.left.Acknowledged s) ∧
      ∃ new, e.left.notices = d.left.notices ++ new ∧
      ∀ critical, .lost (UInt32.ofNat s) critical ∉ new := by
  induction hleads with
  | refl => exact ⟨fun _ => hacked, [], (List.append_nil _).symm, by simp⟩
  | @left e a hleads _ hgenuine ih =>
    have hgrows := (e.left.sent_prefix_step a).length_le
    have hbefore : e.left.sent.length ≤ 2 ^ 30 := Nat.le_trans hgrows hcount
    obtain ⟨hkept, old, hold, holdlost⟩ :=
      ih hbefore (hretains.sublist (e.left.accepted_prefix_step a).sublist)
    have hreach := hleads.reachable h
    have hs : s < e.left.sent.length := Nat.lt_of_lt_of_le hacked.1 hleads.sent_length_le
    obtain ⟨new, hnew, hnewlost⟩ := hreach.not_lost_step hbefore a hs hkept
    refine ⟨?_, old ++ new, ?_, ?_⟩
    · intro hrecent
      exact hreach.kept_step hbefore hgenuine hretains (hkept (Nat.le_trans hgrows hrecent)) hrecent
    · rw [hnew, hold, List.append_assoc]
    · intro critical hmem
      rcases List.mem_append.mp hmem with hmem | hmem
      · exact holdlost critical hmem
      · exact hnewlost critical hmem
  | right _ _ _ ih => exact ih hcount hretains

end

open Turn

/-- Packet 1 is taken in before packet 0, and the right side answers after each
of them. Both answers have the acknowledgement number 1, but only the second
one reports packet 0. -/
def answered : Dialogue :=
  ([queue true [7]] ++ tick ++ tick ++ [toRight 1] ++ tock ++ [toRight 0] ++ tock ++
    [toLeft 1]).foldl play quiet

def unlearned : Dialogue :=
  ([toLeft 0] ++ (List.replicate 30 tick).flatten ++ [Turn.left .settle]).foldl play answered

def remembered : Dialogue :=
  ((List.replicate 30 tick).flatten ++ [Turn.left .settle]).foldl play answered

theorem acknowledged_kept_remembered :
    answered.left.Acknowledged 0 ∧ remembered.left.Acknowledged 0 ∧
      ∃ new, remembered.left.notices = answered.left.notices ++ new ∧
      ∀ critical, .lost 0 critical ∉ new := by
  have h : answered.Reachable Chronicle.Orderly := .playAll (.start _ _ _ _) (by decide +kernel)
  have hleads : answered.Leads Chronicle.Orderly remembered := .playAll .refl (by decide +kernel)
  have hacked : answered.left.Acknowledged 0 := by decide +kernel
  obtain ⟨hkept, hlost⟩ :=
    acknowledged_kept (h.mono fun _ _ ha => ha.roomy) (hleads.mono fun _ _ ha => ha.roomy)
    (by decide +kernel) (by decide +kernel) hacked
  exact ⟨hacked, hkept (by decide +kernel), hlost⟩

/-- A report that is older, but has the same acknowledgement number, unlearns
packet 0, which is then reported lost. -/
theorem acknowledged_lost :
    answered.Reachable Chronicle.Orderly ∧ answered.Leads Chronicle.Orderly unlearned ∧
      unlearned.left.sent.length ≤ 0 + 32 ∧ unlearned.right.sent.length ≤ 2 ^ 30 ∧
      answered.left.Acknowledged 0 ∧ ¬ unlearned.left.Acknowledged 0 ∧
      .lost 0 true ∉ answered.left.notices ∧ .lost 0 true ∈ unlearned.left.notices :=
  ⟨.playAll (.start _ _ _ _) (by decide +kernel), .playAll .refl (by decide +kernel),
    by decide +kernel, by decide +kernel, by decide +kernel, by decide +kernel, by decide +kernel,
    by decide +kernel⟩

end Dialogue

end Courier
