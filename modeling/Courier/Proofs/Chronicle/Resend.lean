import Mathlib.Algebra.Order.BigOperators.Group.List
import Mathlib.Algebra.Order.Group.Nat
import Courier.Proofs.Chronicle.Cargo
import Courier.Proofs.Manifest.Stowed

/-!
# A lost packet is sent again one window later

Until a packet is settled, its critical messages are in flight in it or were
confirmed (`Stows`), wherever its slots are moved to. So when it is lost, all
that comes back was in this one packet and fits the next one together, in front
of everything that was pending. Nothing done before the next packet is built
gets in front of it (`resent_one_window_later`).
-/

namespace Courier

namespace Outgoing

section
variable {o : Outgoing} {f : Manifest} {next acked : UInt32} {packet : UInt8}

theorem stowed_settle (h : o.outbox.Ring) (hne : packet ≠ (Window.index next).toUInt8) :
    (f.requeue o.outbox (o.lostPlaces next acked)).stowed (o.settle next acked).2.2.outbox packet =
      f.stowed o.outbox packet := by
  have hother {p : Place} {m m' : Message}
      (hs : o.outbox.slot p = .inFlight m (Window.index next).toUInt8) :
      o.outbox.slot p ≠ .inFlight m' packet := by
    rw [hs]
    rintro e
    rw [Slot.inFlight.injEq] at e
    exact hne e.2.symm
  rcases fate_cases o.flights (Window.index next) acked with ⟨hfate, -⟩ | ⟨hfate, -⟩ | ⟨hfate, -⟩
  · obtain ⟨hsettle, hlost, -⟩ := settle_unsent hfate
    rw [hsettle, hlost]
    rfl
  · obtain ⟨hsettle, hlost, hsettled⟩ := settle_acknowledged hfate
    rw [hsettle, hlost, hsettled]
    refine Manifest.stowed_released_other f packet (released_carried h _) ?_
    intro p hp m hm
    obtain ⟨m', hm'⟩ := h.mem_carried.mp hp
    exact absurd hm (hother hm')
  · obtain ⟨⟨-, hsettle⟩, hlost, -⟩ := settle_lost hfate
    have hrequeued := requeued_vital h (Window.index next)
    rw [hsettle, hlost, ← Manifest.stowed_requeue (f := f) hrequeued]
    · refine Manifest.stowed_released_other _ packet (released_plain h _) ?_
      intro p hp m hm
      obtain ⟨m', hm', hc⟩ := (mem_plain h).mp hp
      -- the slot was not put back, and what was may only leave it pending
      have hnot : p ∉ o.vital (Window.index next) := by
        intro hv
        obtain ⟨m'', hm'', hc'⟩ := (mem_vital h).mp hv
        rw [hm', Slot.inFlight.injEq] at hm''
        rw [hm''.1, hc'] at hc
        cases hc
      rcases hrequeued.slot_of_notMem hnot with hsame | ⟨m'', hpending⟩
      · exact absurd (hsame.symm.trans hm) (hother hm')
      · cases hpending.symm.trans hm
    · intro p hp m
      obtain ⟨m', hm', -⟩ := (mem_vital h).mp hp
      exact hother hm'

end

end Outgoing

namespace Chronicle

/-- The pending messages with the numbers of their payloads, oldest first. -/
def waiting (c : Chronicle) : List (Message × Nat) := c.manifest.waiting c.outbox

/-- The critical messages in flight in the packet sent one window before the next one. -/
def returning (c : Chronicle) : List (Message × Nat) :=
  c.manifest.aboard c.outbox (c.channel.outgoing.vital (Window.index c.channel.departures.upcoming))

/-- The critical messages of a packet that is not settled yet are in flight in
it, or were confirmed. -/
def Stows (c : Chronicle) : Prop :=
  ∀ k, ∀ hk : k < c.sent.length, c.sent.length < k + 32 ∨
    (c.sent.length = k + 32 ∧ c.settled = false) →
    ∃ gone : Multiset (Message × Nat),
      c.manifest.stowed c.outbox c.sent[k].position + gone =
          (c.sent[k].cargo.filter (·.1.critical) : Multiset (Message × Nat)) ∧
        ∀ x ∈ gone, (x.2, x.1.envelope) ∈ c.confirmed

section
variable {c : Chronicle}

theorem Stows.step_of (h : c.Stows) {c' : Chronicle} (hsent : c'.sent = c.sent)
    (hsettled : c'.settled = false → c.settled = false) (hconfirmed : c.confirmed ⊆ c'.confirmed)
    (hstowed : ∀ k, ∀ hk : k < c.sent.length,
      c'.sent.length < k + 32 ∨ (c'.sent.length = k + 32 ∧ c'.settled = false) →
        ∃ gone : Multiset (Message × Nat),
          c'.manifest.stowed c'.outbox c.sent[k].position + gone =
              c.manifest.stowed c.outbox c.sent[k].position ∧
            ∀ x ∈ gone, (x.2, x.1.envelope) ∈ c'.confirmed) : c'.Stows := by
  intro k hk hrecent
  simp only [hsent] at hk ⊢
  obtain ⟨gone, heq, hgone⟩ := hstowed k hk hrecent
  rw [hsent] at hrecent
  obtain ⟨before, hbefore, hconf⟩ := h k hk (hrecent.imp_right fun ⟨hl, hs⟩ => ⟨hl, hsettled hs⟩)
  refine ⟨gone + before, ?_, ?_⟩
  · rw [← add_assoc, heq, hbefore]
  · intro x hx
    rcases Multiset.mem_add.mp hx with hx | hx
    · exact hgone x hx
    · exact hconfirmed (hconf x hx)

theorem Stows.settle (h : c.Stows) (hi : c.Intact) (hr : c.Reports) : c.settle.Stows := by
  refine h.step_of rfl (fun hs => nomatch hs) (List.subset_append_left _ _) ?_
  intro k hk hrecent
  have hlength : c.sent.length < k + 32 := by
    rcases hrecent with hlt | ⟨-, hs⟩
    · exact hlt
    · cases hs
  have hne : c.sent[k].position ≠ (Window.index c.channel.departures.upcoming).toUInt8 := by
    intro e
    have hsame := congrArg UInt8.toNat e
    rw [hr.toNat_position hk, hr.toNat_upcoming] at hsame
    omega
  refine ⟨0, ?_, fun x hx => absurd hx (Multiset.notMem_zero x)⟩
  rw [add_zero]
  rw [outbox, outgoing_settle]
  exact Outgoing.stowed_settle hi.held.ring hne

theorem Stows.enqueue (h : c.Stows) (hi : c.Intact) (p : Payload) : (c.enqueue p).Stows := by
  rcases hi.enqueue_cases p with hsame | ⟨hqueue, hok, -⟩
  · rw [hsame]
    exact h
  · rw [hqueue]
    have hring := hi.held.ring
    refine h.step_of rfl id (List.Subset.refl _) ?_
    intro k hk _
    refine ⟨0, ?_, fun x hx => absurd hx (Multiset.notMem_zero x)⟩
    rw [add_zero]
    exact Manifest.stowed_pushAll (f := c.manifest) _
      (hring.withNextId _) (fun _ _ _ hs hc => (hi.held.held hs hc).2.2) hok

theorem Stows.receive (h : c.Stows) (hi : c.Intact) (r : Dispatch) (size : Nat) (now : Time) :
    (c.receive r size now).Stows := by
  obtain ⟨places, hconfirming⟩ := hi.confirming r size now
  refine h.step_of hconfirming.sent_eq (fun hs => hconfirming.settled_eq ▸ hs) ?_ ?_
  · rw [hconfirming.confirmed_eq]
    exact List.subset_append_left _ _
  · intro k hk _
    obtain ⟨gone, heq, hgone⟩ :=
      Manifest.stowed_released c.manifest c.sent[k].position hconfirming.released
    refine ⟨gone, ?_, ?_⟩
    · rw [hconfirming.manifest_eq]
      exact heq
    · intro x hx
      obtain ⟨p, hp, hs, -, hnumber⟩ := hgone x hx
      rw [hconfirming.confirmed_eq]
      exact List.mem_append_right _ (mem_confirmations.mpr ⟨p, hp, x.1, _, hs, by rw [hnumber]⟩)

theorem Stows.build (h : c.Stows) (hi : c.Intact) (hr : c.Reports) (hsettled : c.settled = true)
    (now : Time) : (c.build now).Stows := by
  have hdrained := hi.drained now
  have hlen : (c.build now).sent.length = c.sent.length + 1 := by
    rw [sent_build, List.length_append]
    rfl
  have hposition :
      (c.dispatch now).position = (Window.index c.channel.departures.upcoming).toUInt8 := rfl
  intro k hk hrecent
  rw [hlen] at hk hrecent
  have hlt : c.sent.length < k + 32 := by omega
  by_cases hold : k < c.sent.length
  · obtain ⟨gone, heq, hgone⟩ := h k hold (.inl hlt)
    have hne : c.sent[k].position ≠ (Window.index c.channel.departures.upcoming).toUInt8 := by
      intro e
      have hsame := congrArg UInt8.toNat e
      rw [hr.toNat_position hold, hr.toNat_upcoming] at hsame
      omega
    simp only [sent_build, List.getElem_append_left hold]
    refine ⟨gone, ?_, hgone⟩
    rw [← heq]
    exact congrArg (· + gone) (Manifest.stowed_drained_other hdrained hne)
  · obtain rfl : k = c.sent.length := by omega
    simp only [sent_build, List.getElem_concat_length]
    refine ⟨0, ?_, fun x hx => absurd hx (Multiset.notMem_zero x)⟩
    have hnone :
        c.manifest.stowed c.outbox (Window.index c.channel.departures.upcoming).toUInt8 = 0 := by
      refine Multiset.eq_zero_of_forall_notMem fun x hx => ?_
      obtain ⟨p, hs, hc, -⟩ := Manifest.mem_stowed.mp hx
      obtain ⟨-, hsent, -⟩ := hi.held.held hs hc
      rw [Window.has_tag, hi.clear hsettled] at hsent
      cases hsent
    have hstowed := Manifest.stowed_drainUpTo c.manifest c.outbox c.outbox.length Packet.capacity
      (Window.index c.channel.departures.upcoming).toUInt8
    rw [hnone, add_zero] at hstowed
    rw [add_zero, hposition]
    exact hstowed

theorem Stows.step (h : c.Stows) (hi : c.Intact) (hr : c.Reports) {a : Action}
    (hrule : c.Orderly a) : (c.step a).Stows := by
  cases a with
  | settle => exact h.settle hi hr
  | enqueue p => exact h.enqueue hi p
  | build now => exact h.build hi hr hrule now
  | receive r size now => exact h.receive hi r size now
  | takeNotices => exact h

theorem Reachable.stows (h : Reachable Orderly c) : c.Stows := by
  induction h with
  | start peer now => exact fun k hk => nomatch hk
  | step hreach hrule ih => exact ih.step hreach.intact hreach.reports hrule

-- ---------------------------------------------------------------------------
-- From settling the lost packet to building the next one
-- ---------------------------------------------------------------------------

/-- What returns, as the window has it. -/
theorem Intact.stowed_returning (hi : c.Intact) :
    c.manifest.stowed c.outbox (Window.index c.channel.departures.upcoming).toUInt8 = c.returning :=
  Manifest.stowed_eq_aboard ((c.outbox.nodup_carried _).filter _) fun _ =>
  Outgoing.mem_vital hi.held.ring

/-- Settling a packet that is not acknowledged puts its critical messages first. -/
theorem Intact.waiting_settle (hi : c.Intact)
    (hsent : Window.has c.channel.outgoing.flights.sent c.channel.departures.upcoming = true)
    (hacked : Window.has c.channel.departures.acked c.channel.departures.upcoming = false) :
    c.settle.waiting = c.returning ++ c.waiting := by
  have hring := hi.held.ring
  obtain ⟨⟨-, hsettle⟩, hlost, -⟩ := Outgoing.settle_lost (Outgoing.fate_lost hsent hacked)
  have hback := Manifest.waiting_requeue (f := c.manifest) hring
    ((hring.inOrder_carried (Window.index c.channel.departures.upcoming).toUInt8).filter _)
    fun i hi => (Outgoing.mem_vital hring).mp hi |>.imp fun m hm => ⟨_, hm.1⟩
  show Manifest.waiting (c.manifest.requeue c.outbox _) c.settle.channel.outgoing.outbox = _
  rw [outgoing_settle, hsettle, hlost]
  exact (Manifest.waiting_released (Outgoing.requeued_vital hring _).ring
    (Outgoing.released_plain hring _)).trans hback

/-- Before the next packet is built, messages are only added behind those that wait. -/
theorem Intact.waiting_step (hi : c.Intact) (hsettled : c.settled = true) {a : Action}
    (ha : ∀ now, a ≠ .build now) :
    (c.step a).settled = true ∧ (c.step a).sent = c.sent ∧
    ∃ new, (c.step a).waiting = c.waiting ++ new := by
  have hring := hi.held.ring
  cases a with
  | settle =>
    obtain ⟨hsettle, hlost, -⟩ := Outgoing.settle_unsent (Outgoing.fate_unsent (hi.clear hsettled))
    refine ⟨rfl, rfl, [], ?_⟩
    show Manifest.waiting (c.manifest.requeue c.outbox _) c.settle.channel.outgoing.outbox = _
    rw [outgoing_settle, hsettle, hlost, List.append_nil]
    rfl
  | enqueue p =>
    show (c.enqueue p).settled = true ∧ (c.enqueue p).sent = c.sent ∧ _
    rcases hi.enqueue_cases p with hsame | ⟨hqueue, hok, -⟩
    · rw [Chronicle.step, hsame]
      exact ⟨hsettled, rfl, [], (List.append_nil _).symm⟩
    · rw [Chronicle.step, hqueue]
      exact ⟨hsettled, rfl, _, Manifest.waiting_pushAll (f := c.manifest) _
        (hring.withNextId _) hok⟩
  | build now => exact absurd rfl (ha now)
  | receive r size now =>
    obtain ⟨places, hconfirming⟩ := hi.confirming r size now
    refine ⟨hconfirming.settled_eq.trans hsettled, hconfirming.sent_eq, [], ?_⟩
    show Manifest.waiting (c.receive r size now).manifest (c.receive r size now).outbox = _
    rw [hconfirming.manifest_eq, List.append_nil]
    exact Manifest.waiting_released hring hconfirming.released
  | takeNotices => exact ⟨hsettled, rfl, [], (List.append_nil _).symm⟩

theorem Reachable.waiting_run (h : Reachable Orderly c) (hsettled : c.settled = true)
    {as : List Action} (hlegal : c.Legal Orderly as) (hbuild : ∀ a ∈ as, ∀ now, a ≠ .build now) :
    (as.foldl Chronicle.step c).sent = c.sent ∧
    ∃ new, (as.foldl Chronicle.step c).waiting = c.waiting ++ new := by
  induction as generalizing c with
  | nil => exact ⟨rfl, [], (List.append_nil _).symm⟩
  | cons a rest ih =>
    obtain ⟨hrule, hlegal⟩ := hlegal
    obtain ⟨hstill, hsent, first, hfirst⟩ :=
      h.intact.waiting_step hsettled (hbuild a List.mem_cons_self)
    obtain ⟨hsame, second, hsecond⟩ :=
      ih (h.step hrule) hstill hlegal fun b hb => hbuild b (List.mem_cons_of_mem _ hb)
    exact ⟨hsame.trans hsent, first ++ second,
      by rw [List.foldl_cons, hsecond, hfirst, List.append_assoc]⟩

theorem Intact.cargo_dispatch (hi : c.Intact) (now : Time) {front : List (Message × Nat)}
    (hfront : front <+: c.waiting) (hfits : (front.map (·.1.wireSize)).sum ≤ Packet.capacity) :
    front <+: (c.dispatch now).cargo ∧ (c.dispatch now).cargo <+: c.waiting := by
  have hring := hi.held.ring
  obtain ⟨hlength, -⟩ := Manifest.waiting_spec hring c.manifest
  have hcargo : (c.dispatch now).cargo <+: c.waiting :=
    ⟨_, (Manifest.waiting_drained (f := c.manifest) hring (hi.drained now)).symm⟩
  have hle : front.length ≤ (c.channel.build now).1.messages.length :=
    Manifest.length_le_drainUpTo hring hfront (hfront.length_le.trans hlength.le) hfits
  refine ⟨List.prefix_of_prefix_length_le hfront hcargo ?_, hcargo⟩
  rw [Dispatch.cargo, List.length_zip]
  exact Nat.le_min.mpr ⟨hle, hle.trans (Manifest.length_front _ _ _).ge⟩

theorem Reachable.sent_fits {rule : Chronicle → Action → Prop} (h : Reachable rule c) :
    ∀ r ∈ c.sent, (r.packet.messages.map (·.wireSize)).sum ≤ Packet.capacity := by
  induction h with
  | start peer now => exact fun r hr => nomatch hr
  | @step c a _ _ ih =>
    cases a with
    | enqueue p =>
      simp only [Chronicle.step, Chronicle.enqueue]
      split
      · exact ih
      · exact ih
    | build now =>
      intro r hr
      rcases List.mem_append.mp hr with hr | hr
      · exact ih r hr
      · rw [List.mem_singleton.mp hr]
        exact Outbox.sum_drainUpTo _ _ _ _
    | receive r size now =>
      simp only [Chronicle.step, Chronicle.receive]
      split
      · exact ih
      · exact ih
    | _ => exact ih

/-- What returns was in the packet one window before, and so fits the next one. -/
theorem Reachable.returning_fits (h : Reachable Orderly c) {s : Dispatch}
    {gone : Multiset (Message × Nat)} (hs : s ∈ c.sent)
    (hgone : (c.returning : Multiset (Message × Nat)) + gone =
      (s.cargo.filter (·.1.critical) : List _)) :
    c.returning ⊆ s.cargo ∧ (c.returning.map (·.1.wireSize)).sum ≤ Packet.capacity := by
  refine ⟨?_, ?_⟩
  · intro x hx
    have hmem : x ∈ (c.returning : Multiset (Message × Nat)) + gone :=
      Multiset.mem_add.mpr (.inl hx)
    rw [hgone] at hmem
    exact (List.mem_filter.mp hmem).1
  · have hsum := congrArg (fun xs => (xs.map fun x : Message × Nat => x.1.wireSize).sum) hgone
    simp only [Multiset.map_add, Multiset.sum_add, Multiset.map_coe, Multiset.sum_coe] at hsum
    have hfilter : ((s.cargo.filter (·.1.critical)).map (·.1.wireSize)).sum ≤
        (s.cargo.map (·.1.wireSize)).sum :=
      (List.filter_sublist.map _).sum_le_sum fun _ _ => Nat.zero_le _
    have hmessages : s.cargo.map (·.1.wireSize) = s.packet.messages.map (·.wireSize) := by
      have hfst : s.cargo.map (·.1) = s.packet.messages := by
        rw [Dispatch.cargo, List.map_fst_zip]
        exact (h.labelled.length_numbers s hs).ge
      rw [← hfst, List.map_map]
      rfl
    have := h.sent_fits s hs
    rw [hmessages] at hfilter
    omega

/-- When a packet is settled that is not acknowledged, each of its critical
messages that was not confirmed is in the packet built next, one window later.
There the messages that return come first, behind them those that were pending,
and behind these any that were queued since. -/
theorem resent_one_window_later (h : Reachable Orderly c) {k : Nat} {s : Dispatch}
    (hs : c.sent[k]? = some s) (hlength : c.sent.length = k + 32) (hsettled : c.settled = false)
    (hacked : c.channel.departures.isAcked (Window.index s.sequence) = false)
    {m : Message} {n : Nat} (hm : (m, n) ∈ s.cargo) (hc : m.critical = true)
    (hconfirmed : (n, m.envelope) ∉ c.confirmed) {as : List Action}
      (hlegal : c.settle.Legal Orderly as) (hbuild : ∀ a ∈ as, ∀ now, a ≠ .build now) (now : Time) :
      ∃ r, ((as.foldl Chronicle.step c.settle).build now).sent = c.sent ++ [r] ∧
      r.sequence = s.sequence + 32 ∧
      (m, n) ∈ c.returning ∧ c.returning ⊆ s.cargo ∧ c.returning <+: r.cargo ∧
      ∃ new, r.cargo <+: c.returning ++ c.waiting ++ new := by
  obtain ⟨hk, rfl⟩ := List.getElem?_eq_some_iff.mp hs
  have hreports := h.reports
  have htag : c.sent[k].position = (Window.index c.channel.departures.upcoming).toUInt8 := by
    apply UInt8.toNat_inj.mp
    rw [hreports.toNat_position hk, hreports.toNat_upcoming, hlength, Nat.add_mod_right]
  obtain ⟨gone, heq, hgone⟩ := h.stows k hk (.inr ⟨hlength, hsettled⟩)
  rw [htag] at heq
  have hmem :
      (m, n) ∈ c.manifest.stowed c.outbox (Window.index c.channel.departures.upcoming).toUInt8 := by
    have hall : (m, n) ∈ (c.sent[k].cargo.filter (·.1.critical) : Multiset (Message × Nat)) :=
      List.mem_filter.mpr ⟨hm, hc⟩
    rw [← heq] at hall
    rcases Multiset.mem_add.mp hall with hall | hall
    · exact hall
    · exact absurd (hgone _ hall) hconfirmed
  obtain ⟨p, hslot, -⟩ := Manifest.mem_stowed.mp hmem
  obtain ⟨-, hflight, -⟩ := h.intact.held.held hslot hc
  rw [Window.has_tag] at hflight
  rw [h.intact.stowed_returning] at hmem heq
  have hunacked : Window.has c.channel.departures.acked c.channel.departures.upcoming = false := by
    rw [← hacked, Departures.isAcked, Window.has_index]
    refine Window.has_congr ?_
    rw [hreports.upcoming_eq, hreports.sequence_eq k hk, UInt32.toNat_ofNat', UInt32.toNat_ofNat']
    omega
  obtain ⟨hinside, hfits⟩ := h.returning_fits (List.getElem_mem hk) heq
  have hafter : Reachable Orderly c.settle := h.step (a := .settle) trivial
  obtain ⟨hsent, new, hnew⟩ := hafter.waiting_run rfl hlegal hbuild
  rw [h.intact.waiting_settle hflight hunacked] at hnew
  have hlast := hafter.run hlegal
  have hfront : c.returning <+: (as.foldl Chronicle.step c.settle).waiting := by
    rw [hnew, List.append_assoc]
    exact List.prefix_append _ _
  obtain ⟨hfirst, hcargo⟩ := hlast.intact.cargo_dispatch now hfront hfits
  refine ⟨_, ?_, ?_, hmem, hinside, hfirst, new, hnew ▸ hcargo⟩
  · rw [sent_build, hsent]
    rfl
  · show (as.foldl Chronicle.step c.settle).channel.departures.upcoming = _
    have hcount : (as.foldl Chronicle.step c.settle).sent.length = k + 32 := by
      rw [hsent]; exact hlength
    rw [hlast.reports.upcoming_eq, hcount, hreports.sequence_eq k hk, UInt32.ofNat_add]
    rfl

end

def unanswered : Chronicle :=
  (.enqueue { kind := .data, critical := true, data := [7] } ::
      ((List.replicate 32 [.settle, .build 0]).flatten ++
        [.enqueue { kind := .data, critical := true, data := [8] }])).foldl step
    (start { ip := .v4 0, port := Packet.defaultPort } 0)

def firstPacket : Dispatch :=
  { packet :=
      { header :=
          { protocol := Packet.protocolId, count := 1, sequence := 0, ack := 0xFFFFFFFF,
            ackBits := 0xFFFFFFFF }
        messages := [⟨.data, true, 0, 0, [7]⟩] }
    numbers := [0]
    heard := [] }

theorem resent_one_window_later_unanswered :
    ∃ r, (unanswered.settle.build 0).sent = unanswered.sent ++ [r] ∧ r.sequence = 32 ∧
      (⟨.data, true, 0, 0, [7]⟩, 0) ∈ unanswered.returning ∧ unanswered.returning <+: r.cargo ∧
      ∃ new, r.cargo <+: unanswered.returning ++ unanswered.waiting ++ new := by
  have h : Reachable Orderly unanswered := .run (.start _ _) (by decide +kernel)
  have hlegal : unanswered.settle.Legal Orderly [] := trivial
  obtain ⟨r, hsent, hsequence, hmem, -, hfirst, hrest⟩ :=
    resent_one_window_later (k := 0) (s := firstPacket)
    (m := ⟨.data, true, 0, 0, [7]⟩) (n := 0) h (by decide +kernel) (by decide +kernel)
    (by decide +kernel) (by decide +kernel) (by decide +kernel) (by decide +kernel)
    (by decide +kernel)
    hlegal (by simp) 0
  exact ⟨r, hsent, hsequence, hmem, hfirst, hrest⟩

end Chronicle

end Courier
