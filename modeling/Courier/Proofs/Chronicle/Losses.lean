import Courier.Proofs.Chronicle.Resend

/-!
# Which packets are reported lost

The two fields of `Flights` describe the packets that are not settled yet, each
at its position (`Flown`). So settling reports the packet one window back if it
was built and is not acknowledged, and nothing else. Over a whole history the
reports are those of some of the settled packets, in the order in which they
were built (`losses_exact`).
-/

namespace Courier

def Notice.lost? : Notice → Option (UInt32 × Bool)
  | .lost sequence critical => some (sequence, critical)
  | _ => none

/-- The packets that notices report as lost, and whether they were critical. -/
def lossesOf (notices : List Notice) : List (UInt32 × Bool) := notices.filterMap Notice.lost?

@[simp] theorem lossesOf_append (first second : List Notice) :
    lossesOf (first ++ second) = lossesOf first ++ lossesOf second :=
  List.filterMap_append

theorem lossesOf_eq_nil {notices : List Notice} (h : ∀ n ∈ notices, n.lost? = none) :
    lossesOf notices = [] :=
  List.filterMap_eq_nil_iff.mpr h

def Dispatch.loss (r : Dispatch) : UInt32 × Bool := (r.sequence, r.packet.messages.any (·.critical))

namespace Outgoing

section
variable {o : Outgoing}

theorem losses_settle (o : Outgoing) (next acked : UInt32) :
    lossesOf (o.settle next acked).2.1 =
      if Window.has o.flights.sent next = true ∧ Window.has acked next = false then
        [(next - 32, Window.has o.flights.critical next)] else [] := by
  rcases fate_cases o.flights (Window.index next) acked with ⟨hfate, hsent⟩ | ⟨hfate, -, hacked⟩
    | ⟨hfate, hsent, hacked⟩
  · rw [(settle_unsent hfate).1, Window.has_index] at *
    simp [hsent, lossesOf]
  · rw [(settle_acknowledged hfate).1, Window.has_index] at *
    simp [hacked, lossesOf, Notice.lost?]
  · have hcritical : (o.flights.fate (Window.index next) acked == .sentCritical) =
        Window.has o.flights.critical next := by
      simp only [Flights.fate, hsent, hacked, Window.has_index]
      cases Window.has o.flights.critical next <;> rfl
    rw [(settle_lost hfate).1.1, hcritical]
    rw [Window.has_index] at hsent hacked
    simp [hsent, hacked, lossesOf, Notice.lost?]

end

end Outgoing

namespace Chronicle

/-- The packet with number `k` has not been settled. -/
def Unsettled (c : Chronicle) (k : Nat) : Prop :=
  c.sent.length < k + 32 ∨ (c.sent.length = k + 32 ∧ c.settled = false)

/-- What the window remembers of the packets built: which are not settled, and
which of these are critical. -/
structure Flown (c : Chronicle) : Prop where
  sent_iff : ∀ i, Window.has c.channel.outgoing.flights.sent i = true ↔
    ∃ k < c.sent.length, c.Unsettled k ∧ k % 32 = i.toNat % 32
  critical_eq : ∀ k (hk : k < c.sent.length), c.Unsettled k →
    Window.has c.channel.outgoing.flights.critical (UInt32.ofNat k) = c.sent[k].loss.2

section
variable {c c' : Chronicle}

theorem toNat_number (k : Nat) : (UInt32.ofNat k).toNat % 32 = k % 32 := by
  rw [UInt32.toNat_ofNat']
  omega

theorem flown_start (peer : Address) (now : Time) : (start peer now).Flown where
  sent_iff i := by
    show Window.has 0 i = true ↔ _
    rw [Window.has_zero]
    simp [start]
  critical_eq k hk := nomatch hk

theorem Flown.congr (h : c.Flown)
    (hflights : c'.channel.outgoing.flights = c.channel.outgoing.flights) (hsent : c'.sent = c.sent)
    (hsettled : c'.settled = c.settled) : c'.Flown := by
  have hunsettled (k : Nat) : c'.Unsettled k ↔ c.Unsettled k := by
    rw [Unsettled, Unsettled, hsent, hsettled]
  refine ⟨fun i => ?_, fun k hk hopen => ?_⟩
  · simp only [hflights, hsent, hunsettled]
    exact h.sent_iff i
  · simp only [hflights, hsent]
    exact h.critical_eq k (hsent ▸ hk) ((hunsettled k).mp hopen)

theorem Flown.settle (h : c.Flown) (hi : c.Intact) (hr : c.Reports) : c.settle.Flown := by
  obtain ⟨-, -, hflights, -⟩ := Outgoing.settle_spec hi.held.ring c.channel.departures.upcoming
    c.channel.departures.acked
  rw [← outgoing_settle] at hflights
  have hposition :
      (Window.index c.channel.departures.upcoming).toNat % 32 = c.sent.length % 32 := by
    rw [Window.toNat_index, hr.upcoming_eq, toNat_number, Nat.mod_mod]
  have hunsettled (k : Nat) : c.settle.Unsettled k ↔ c.sent.length < k + 32 := by
    simp [Unsettled, Chronicle.settle]
  refine ⟨fun i => ?_, fun k hk hopen => ?_⟩
  · rw [hflights, Outgoing.has_clear, hposition, Bool.and_eq_true, h.sent_iff, Bool.not_eq_true',
      decide_eq_false_iff_not]
    simp only [hunsettled]
    constructor
    · rintro ⟨⟨k, hk, hopen, hki⟩, hne⟩
      rcases hopen with hopen | ⟨hlast, -⟩
      · exact ⟨k, hk, hopen, hki⟩
      · omega
    · rintro ⟨k, hk, hopen, hki⟩
      have hk : k < c.sent.length := hk
      exact ⟨⟨k, hk, .inl hopen, hki⟩, by omega⟩
  · have hk : k < c.sent.length := hk
    have hopen := (hunsettled k).mp hopen
    rw [hflights]
    simp only [Flights.clear, Window.has_and, Window.has_not, Window.has_bit, hposition,
      toNat_number]
    rw [h.critical_eq k hk (.inl hopen), decide_eq_false (by omega), Bool.not_false, Bool.and_true]
    rfl

theorem Flown.build (h : c.Flown) (hr : c.Reports) (hsettled : c.settled = true) (now : Time) :
    (c.build now).Flown := by
  have hlen : (c.build now).sent.length = c.sent.length + 1 := by
    rw [sent_build, List.length_append]
    rfl
  have hposition :
      (Window.index c.channel.departures.upcoming).toNat % 32 = c.sent.length % 32 := by
    rw [Window.toNat_index, hr.upcoming_eq, toNat_number, Nat.mod_mod]
  have hflights : (c.build now).channel.outgoing.flights =
      c.channel.outgoing.flights.launch c.channel.departures.upcoming (c.dispatch now).loss.2 := rfl
  have hunsettled (k : Nat) : (c.build now).Unsettled k ↔ c.sent.length < k + 32 := by
    have hopen : (c.build now).settled = false := rfl
    rw [Unsettled, hlen, hopen, eq_self, and_true]
    omega
  have hbefore (k : Nat) : c.Unsettled k ↔ c.sent.length < k + 32 := by
    simp [Unsettled, hsettled]
  refine ⟨fun i => ?_, fun k hk hopen => ?_⟩
  · rw [hflights]
    simp only [Flights.launch, Window.has_or, Window.has_bit, Bool.or_eq_true, h.sent_iff,
      decide_eq_true_eq, hposition, hunsettled, hbefore, hlen]
    constructor
    · rintro (⟨k, hk, hopen, hki⟩ | hlast)
      · exact ⟨k, by omega, hopen, hki⟩
      · exact ⟨c.sent.length, by omega, by omega, hlast⟩
    · rintro ⟨k, hk, hopen, hki⟩
      rcases Nat.lt_succ_iff_lt_or_eq.mp hk with hk | rfl
      · exact .inl ⟨k, hk, hopen, hki⟩
      · exact .inr hki
  · have hopen := (hunsettled k).mp hopen
    rw [hlen] at hk
    rw [hflights]
    rcases Nat.lt_succ_iff_lt_or_eq.mp hk with hk | rfl
    · have hold := h.critical_eq k hk ((hbefore k).mpr hopen)
      have hne : ¬ c.sent.length % 32 = k % 32 := by omega
      simp only [sent_build, List.getElem_append_left hk, ← hold]
      cases hloss : (c.dispatch now).loss.2 <;>
        simp [Flights.launch, Window.has_bit, hposition, hne]
    · simp only [sent_build, List.getElem_concat_length]
      cases hloss : (c.dispatch now).loss.2 <;>
        simp [Flights.launch, Window.has_bit, hposition]

theorem Flown.step (h : c.Flown) (hi : c.Intact) (hr : c.Reports) {a : Action}
    (hrule : c.Orderly a) : (c.step a).Flown := by
  cases a with
  | settle => exact h.settle hi hr
  | enqueue p =>
    rcases hi.enqueue_cases p with hsame | ⟨hqueue, -⟩
    · rw [Chronicle.step, hsame]
      exact h
    · rw [Chronicle.step, hqueue]
      exact h.congr rfl rfl rfl
  | build now => exact h.build hr hrule now
  | receive r size now =>
    obtain ⟨places, hconfirming⟩ := hi.confirming r size now
    refine h.congr ?_ hconfirming.sent_eq hconfirming.settled_eq
    rw [Chronicle.step, hconfirming.outgoing_eq]
  | takeNotices => exact h.congr rfl rfl rfl

theorem Reachable.flown (h : Reachable Orderly c) : c.Flown := by
  induction h with
  | start peer now => exact flown_start peer now
  | step hreach hrule ih => exact ih.step hreach.intact hreach.reports hrule

-- ---------------------------------------------------------------------------
-- What settling reports
-- ---------------------------------------------------------------------------

theorem Reports.upcoming_sub (hr : c.Reports) {k : Nat} {r : Dispatch} (hget : c.sent[k]? = some r)
    (hlength : c.sent.length = k + 32) : c.channel.departures.upcoming - 32 = r.sequence := by
  obtain ⟨hk, rfl⟩ := List.getElem?_eq_some_iff.mp hget
  rw [hr.upcoming_eq, hlength, hr.sequence_eq k hk, UInt32.ofNat_add]
  exact UInt32.add_sub_cancel _ _

/-- The packet one window back is reported unless it is acknowledged. -/
theorem Flown.losses_verdicts (h : c.Flown) (hr : c.Reports) {k : Nat} {r : Dispatch}
    (hget : c.sent[k]? = some r) (hlength : c.sent.length = k + 32) (hsettled : c.settled = false) :
    r.sequence = UInt32.ofNat c.sent.length - 32 ∧
      lossesOf c.verdicts =
        if Window.has c.channel.departures.acked (UInt32.ofNat c.sent.length) then
          []
        else [r.loss] := by
  have hback := hr.upcoming_sub hget hlength
  obtain ⟨hk, rfl⟩ := List.getElem?_eq_some_iff.mp hget
  have hopen : c.Unsettled k := .inr ⟨hlength, hsettled⟩
  have hmod : (UInt32.ofNat (k + 32)).toNat % 32 = (UInt32.ofNat k).toNat % 32 := by
    rw [toNat_number, toNat_number, Nat.add_mod_right]
  have hsent : Window.has c.channel.outgoing.flights.sent (UInt32.ofNat (k + 32)) = true :=
    (h.sent_iff _).mpr ⟨k, hk, hopen, by rw [toNat_number, Nat.add_mod_right]⟩
  have hcritical :
      Window.has c.channel.outgoing.flights.critical (UInt32.ofNat (k + 32)) = c.sent[k].loss.2 :=
    (Window.has_congr hmod).trans (h.critical_eq k hk hopen)
  have hlosses :=
    c.channel.outgoing.losses_settle c.channel.departures.upcoming c.channel.departures.acked
  rw [hback] at hlosses
  rw [hr.upcoming_eq, hlength] at hback hlosses
  rw [hsent, hcritical] at hlosses
  rw [verdicts, hr.upcoming_eq, hlength, hlosses, hback]
  refine ⟨rfl, ?_⟩
  cases Window.has c.channel.departures.acked (UInt32.ofNat (k + 32)) with
  | true => rfl
  | false => rfl

theorem losses_verdicts_of_clear
    (hclear : Window.has c.channel.outgoing.flights.sent c.channel.departures.upcoming = false) :
    lossesOf c.verdicts = [] := by
  rw [verdicts, Outgoing.losses_settle, hclear]
  rfl

theorem Flown.losses_verdicts_early (h : c.Flown) (hr : c.Reports) (hlength : c.sent.length < 32) :
    (∀ r ∈ c.sent, r.sequence ≠ UInt32.ofNat c.sent.length - 32) ∧ lossesOf c.verdicts = [] := by
  refine ⟨?_, losses_verdicts_of_clear (Bool.eq_false_iff.mpr fun hsent => ?_)⟩
  · intro r hmem hsame
    obtain ⟨k, hk, rfl⟩ := List.getElem_of_mem hmem
    have htoNat := congrArg UInt32.toNat hsame
    have hsmall {j : Nat} (hj : j < 32) : (UInt32.ofNat j).toNat = j :=
      UInt32.toNat_ofNat_of_lt' (Nat.lt_trans hj (by decide))
    rw [hr.sequence_eq k hk, UInt32.toNat_sub, hsmall hlength, hsmall (Nat.lt_trans hk hlength),
      show (32 : UInt32).toNat = 32 from rfl] at htoNat
    omega
  · obtain ⟨k, hk, -, hmod⟩ := (h.sent_iff _).mp hsent
    rw [hr.upcoming_eq, toNat_number] at hmod
    omega

-- ---------------------------------------------------------------------------
-- All reports
-- ---------------------------------------------------------------------------

def settledCount (c : Chronicle) : Nat :=
  if c.settled then c.sent.length - 31 else c.sent.length - 32

/-- The losses reported are those of some of the packets settled, each once and in order. -/
def Accounted (c : Chronicle) : Prop :=
  ∃ lost : List Dispatch, lost.Sublist (c.sent.take c.settledCount) ∧
  lossesOf c.notices = lost.map Dispatch.loss

theorem Accounted.congr (h : c.Accounted) (hsent : c'.sent = c.sent)
    (hsettled : c'.settled = c.settled) (hnotices : lossesOf c'.notices = lossesOf c.notices) :
    c'.Accounted := by
  rw [Accounted, settledCount, hsent, hsettled, hnotices]
  exact h

theorem Accounted.settle (h : c.Accounted) (hi : c.Intact) (hf : c.Flown) (hr : c.Reports) :
    c.settle.Accounted := by
  obtain ⟨lost, hsub, hlosses⟩ := h
  have hcount : c.settle.settledCount = c.sent.length - 31 := rfl
  rw [Accounted, notices_settle, lossesOf_append, hlosses, hcount]
  show ∃ lost' : List Dispatch, lost'.Sublist (c.sent.take (c.sent.length - 31)) ∧ _
  cases hsettled : c.settled with
  | true =>
    rw [settledCount, hsettled, if_pos rfl] at hsub
    exact ⟨lost, hsub, by rw [losses_verdicts_of_clear (hi.clear hsettled), List.append_nil]⟩
  | false =>
    rw [settledCount, hsettled, if_neg Bool.false_ne_true] at hsub
    rcases Nat.lt_or_ge c.sent.length 32 with hearly | hfull
    · refine ⟨lost, ?_, by rw [(hf.losses_verdicts_early hr hearly).2, List.append_nil]⟩
      rw [Nat.sub_eq_zero_of_le hearly.le] at hsub
      rw [List.take_zero, List.sublist_nil] at hsub
      rw [hsub]
      exact List.nil_sublist _
    · obtain ⟨k, hlength⟩ : ∃ k, c.sent.length = k + 32 := Nat.exists_eq_add_of_le' hfull
      have hk : k < c.sent.length := by omega
      have hnext : c.sent.take (c.sent.length - 31) = c.sent.take k ++ [c.sent[k]] := by
        rw [hlength, show k + 32 - 31 = k + 1 from rfl, List.take_succ_eq_append_getElem hk]
      rw [show c.sent.length - 32 = k by omega] at hsub
      rw [hnext, (hf.losses_verdicts hr (List.getElem?_eq_getElem hk) hlength hsettled).2]
      split
      · exact ⟨lost, hsub.trans (List.sublist_append_left _ _), List.append_nil _⟩
      · exact ⟨lost ++ [c.sent[k]], hsub.append (List.Sublist.refl _), by rw [List.map_append]; rfl⟩

theorem Accounted.build (h : c.Accounted) (hsettled : c.settled = true) (now : Time) :
    (c.build now).Accounted := by
  obtain ⟨lost, hsub, hlosses⟩ := h
  refine ⟨lost, ?_, hlosses⟩
  rw [settledCount, hsettled, if_pos rfl] at hsub
  have hcount : (c.build now).settledCount = c.sent.length - 31 := by
    show (c.sent ++ [c.dispatch now]).length - 32 = _
    rw [List.length_append]
    rfl
  rw [hcount, sent_build, List.take_append_of_le_length (Nat.sub_le _ _)]
  exact hsub

theorem losses_receive (c : Chronicle) (r : Dispatch) (size : Nat) (now : Time) :
    lossesOf (c.receive r size now).notices = lossesOf c.notices := by
  obtain ⟨new, hnew, hkind⟩ := c.channel.receive_notices r.packet size now
  have hnone : lossesOf new = [] := lossesOf_eq_nil fun n hn => by
    rcases hkind n hn with ⟨e, rfl⟩ | ⟨e, rfl⟩
    · rfl
    · rfl
  have hnotices : (c.receive r size now).notices = c.notices ++ new := by
    simp only [receive]
    split
    · exact (congrArg (c.taken ++ ·) hnew).trans (List.append_assoc ..).symm
    · exact (congrArg (c.taken ++ ·) hnew).trans (List.append_assoc ..).symm
  rw [hnotices, lossesOf_append, hnone, List.append_nil]

theorem Accounted.step (h : c.Accounted) (hi : c.Intact) (hf : c.Flown) (hr : c.Reports)
    {a : Action} (hrule : c.Orderly a) : (c.step a).Accounted := by
  cases a with
  | settle => exact h.settle hi hf hr
  | enqueue p =>
    rcases hi.enqueue_cases p with hsame | ⟨hqueue, -⟩
    · rw [Chronicle.step, hsame]
      exact h
    · rw [Chronicle.step, hqueue]
      exact h
  | build now => exact h.build hrule now
  | receive r size now =>
    obtain ⟨places, hconfirming⟩ := hi.confirming r size now
    exact h.congr hconfirming.sent_eq hconfirming.settled_eq (c.losses_receive r size now)
  | takeNotices => exact h.congr rfl rfl (congrArg lossesOf (List.append_nil _))

theorem Reachable.accounted (h : Reachable Orderly c) : c.Accounted := by
  induction h with
  | start peer now => exact ⟨[], List.nil_sublist _, rfl⟩
  | step hreach hrule ih => exact ih.step hreach.intact hreach.flown hreach.reports hrule

/-- Packets are numbered in the order in which they are built. The first check
before packet `n` reports the packet of one window before as lost, if there is one
and it is not acknowledged, and nothing else. So over the whole history no packet
is reported twice, and none before a window is full. -/
theorem losses_exact (h : Reachable Orderly c) :
    (∀ k r, c.sent[k]? = some r → r.sequence = UInt32.ofNat k) ∧
      (∃ lost : List Dispatch, lost.Sublist (c.sent.take (c.sent.length - 31)) ∧
        lossesOf c.notices = lost.map Dispatch.loss) ∧
      ((c.settled = true → c.sent = []) →
        ∃ new, c.settle.notices = c.notices ++ new ∧
          (∀ k r, c.sent[k]? = some r → c.sent.length = k + 32 →
            r.sequence = UInt32.ofNat c.sent.length - 32 ∧
              lossesOf new =
                if Window.has c.channel.departures.acked (UInt32.ofNat c.sent.length) then []
                else [(UInt32.ofNat c.sent.length - 32, r.packet.messages.any (·.critical))]) ∧
          (c.sent.length < 32 →
            (∀ r ∈ c.sent, r.sequence ≠ UInt32.ofNat c.sent.length - 32) ∧ lossesOf new = [])) := by
  have hreports := h.reports
  refine ⟨?_, ?_, fun hcheck =>
      ⟨c.verdicts, c.notices_settle, ?_, h.flown.losses_verdicts_early hreports⟩⟩
  · intro k r hget
    obtain ⟨hk, rfl⟩ := List.getElem?_eq_some_iff.mp hget
    exact hreports.sequence_eq k hk
  · obtain ⟨lost, hsub, hlosses⟩ := h.accounted
    refine ⟨lost, hsub.trans (List.take_sublist_take_left ?_), hlosses⟩
    unfold settledCount
    split
    · exact Nat.le_refl _
    · omega
  · intro k r hk hlength
    have hsettled : c.settled = false := by
      refine Bool.eq_false_iff.mpr fun hsettled => ?_
      rw [hcheck hsettled] at hlength
      cases hlength
    obtain ⟨hsequence, hlosses⟩ := h.flown.losses_verdicts hreports hk hlength hsettled
    exact ⟨hsequence, hsequence ▸ hlosses⟩

/-- The packet with the message is reported as soon as a window has passed, the
empty one that followed it a packet later. -/
theorem losses_exact_unanswered :
    let c := unanswered.settle.build 0
    lossesOf c.notices = [(0, true)] ∧
      (∃ lost : List Dispatch, lost.Sublist (c.sent.take 2) ∧
        lossesOf c.notices = lost.map Dispatch.loss) ∧
      ∃ new, c.settle.notices = c.notices ++ new ∧ lossesOf new = [(1, false)] := by
  intro c
  have hunanswered : Reachable Orderly unanswered := .run (.start _ _) (by decide +kernel)
  have h : Reachable Orderly c := (hunanswered.step (a := .settle) trivial).step (a := .build 0) rfl
  have hlength : c.sent.length = 33 := by decide +kernel
  have hunsettled : c.settled = false := by decide +kernel
  obtain ⟨-, hhistory, hcheck⟩ := losses_exact h
  obtain ⟨new, hnotices, hlast, -⟩ := hcheck fun hsettled => nomatch hunsettled.symm.trans hsettled
  have hempty : c.sent[1]?.map (fun r => r.packet.messages.any (·.critical)) = some false := by
    decide +kernel
  obtain ⟨r, hr, hplain⟩ := Option.map_eq_some_iff.mp hempty
  obtain ⟨-, hlosses⟩ := hlast 1 r hr hlength
  have hacked : Window.has c.channel.departures.acked (UInt32.ofNat 33) = false := by decide +kernel
  rw [hlength] at hhistory
  rw [hlength, hacked, hplain] at hlosses
  exact ⟨by decide +kernel, hhistory, new, hnotices, hlosses⟩

end

end Chronicle

end Courier
