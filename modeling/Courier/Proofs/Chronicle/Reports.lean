import Courier.Proofs.Arrivals
import Courier.Proofs.Chronicle

/-!
# What packets report

The acknowledgement fields of a packet stand for the packets that its sender
had taken in when it was built (`Reachable.reports`). Applied by the other side,
they acknowledge those and no others (`acked_iff`).
-/

namespace Courier

namespace Arrivals

/-- The record stands for the packets in `heard`, as long as their numbers have
not wrapped around. -/
def Follows (a : Arrivals) (heard : List UInt32) : Prop :=
  (∀ s ∈ heard, s.toNat < 2 ^ 30) →
    ∃ reference, a.Tracks reference (heard.map fun s => (s.toNat : Int)) ∧ reference < 2 ^ 30 ∧
      (a.synced = false → reference = -1)

theorem follows_empty : ({} : Arrivals).Follows [] := by
  intro _
  exact ⟨-1, tracks_empty, by decide, fun _ => rfl⟩

theorem Follows.record {a : Arrivals} {heard : List UInt32} {s : UInt32} (h : a.Follows heard)
    (haccepted : (a.record s).1.accepted = true) : (a.record s).2.Follows (heard ++ [s]) := by
  intro hsmall
  obtain ⟨reference, htracks, hlt, hsync⟩ := h fun t ht => hsmall t (List.mem_append_left _ ht)
  have hs := hsmall s (by simp)
  have hle := htracks.neg_one_le
  obtain ⟨hrecord, hsynced⟩ := htracks.record (s := s) (x := s.toNat) hsync (by omega) (by omega)
    (by omega) (by omega) haccepted
  refine ⟨max reference s.toNat, ?_, by omega, ?_⟩
  · rw [List.map_append]
    exact hrecord
  · rw [hsynced]
    exact fun hfalse => nomatch hfalse

end Arrivals

namespace Departures

/-- Of the last 32 packets sent, a report that can be applied acknowledges
exactly those taken in. -/
theorem acked_iff {d : Departures} {a : Arrivals} {reference : Int} {taken : List Int}
    {count s : Nat} (ht : a.Tracks reference taken) (href : reference < 2 ^ 30)
    (hcount : count ≤ 2 ^ 30) (hupcoming : d.upcoming = UInt32.ofNat count)
    (hgap : (d.sequence - a.newest).toNat < 32) (hs : s < count) (hrecent : count ≤ s + 32) :
    Window.has (d.reported a.newest a.seen) (UInt32.ofNat s) = true ↔ (s : Int) ∈ taken := by
  have hnewest := ht.newest_eq
  have hle := ht.neg_one_le
  have hsize : UInt32.size = 2 ^ 32 := rfl
  have hsequence : d.sequence.toNat = count - 1 := by
    have h := congrArg UInt32.toNat hupcoming
    rw [upcoming, UInt32.toNat_add, UInt32.toNat_one, UInt32.toNat_ofNat_of_lt' (by omega)] at h
    have := d.sequence.toNat_lt
    omega
  have hgapeq : ((d.sequence - a.newest).toNat : Int) = count - 1 - reference := by
    have := a.newest.toNat_lt
    rw [UInt32.toNat_sub, hsequence] at hgap ⊢
    omega
  have hback : UInt32.ofNat s = d.sequence - UInt32.ofNat (count - 1 - s) := by
    apply UInt32.toNat_inj.mp
    rw [UInt32.toNat_ofNat_of_lt' (by omega), Window.toNat_back _ (by omega), hsequence]
    omega
  rw [hback, has_reported d _ _ hgap (by omega), Bool.and_eq_true, decide_eq_true_eq]
  by_cases hk : (d.sequence - a.newest).toNat ≤ count - 1 - s
  · have hseen := ht.seen_iff (count - 1 - s - (d.sequence - a.newest).toNat) (by omega)
    rw [← Arrivals.back_of_ahead hk (by omega),
      show reference - ((count - 1 - s - (d.sequence - a.newest).toNat : Nat) : Int) = s by omega]
        at hseen
    rw [hseen]
    simp only [hk, and_true, or_iff_left_iff_imp]
    omega
  · simp only [hk, and_false, false_iff]
    intro hmem
    have := ht.le_reference _ hmem
    omega

end Departures

namespace Chronicle

section
variable {rule : Chronicle → Action → Prop} {c : Chronicle}

/-- What packets report and how they are numbered. -/
structure Reports (c : Chronicle) : Prop where
  arrivals : c.channel.arrivals.Follows c.heard
  upcoming_eq : c.channel.departures.upcoming = UInt32.ofNat c.sent.length
  sequence_eq : ∀ k (hk : k < c.sent.length), c.sent[k].sequence = UInt32.ofNat k
  heard_subset : ∀ r ∈ c.sent, r.heard ⊆ c.heard
  report : ∀ r ∈ c.sent, ∃ a : Arrivals, a.Follows r.heard ∧ r.packet.header.ack = a.newest ∧
    r.packet.header.ackBits = a.seen

theorem reports_start (peer : Address) (now : Time) : (start peer now).Reports where
  arrivals := Arrivals.follows_empty
  upcoming_eq := (by decide : (0xFFFFFFFF : UInt32) + 1 = UInt32.ofNat 0)
  sequence_eq k hk := nomatch hk
  heard_subset r hr := nomatch hr
  report r hr := nomatch hr

theorem Reports.congr {c' : Chronicle} (h : c.Reports)
    (harrivals : c'.channel.arrivals = c.channel.arrivals)
    (hdepartures : c'.channel.departures.sequence = c.channel.departures.sequence)
    (hsent : c'.sent = c.sent) (haccepted : c'.accepted = c.accepted) : c'.Reports := by
  obtain ⟨harr, hup, hseq, hsub, hreport⟩ := h
  have hheard : c'.heard = c.heard := congrArg (List.map Dispatch.sequence) haccepted
  refine ⟨?_, ?_, ?_, ?_, ?_⟩
  · rw [harrivals, hheard]
    exact harr
  · rw [hsent, ← hup]
    exact congrArg (· + 1) hdepartures
  · simp only [hsent]
    exact hseq
  · rw [hsent, hheard]
    exact hsub
  · rw [hsent]
    exact hreport

theorem Reports.build (h : c.Reports) (now : Time) : (c.build now).Reports := by
  obtain ⟨harr, hup, hseq, hsub, hreport⟩ := h
  refine ⟨harr, ?_, ?_, ?_, ?_⟩
  · show c.channel.departures.upcoming + 1 = UInt32.ofNat (c.sent ++ _).length
    rw [hup, List.length_append, UInt32.ofNat_add]
    rfl
  · intro k hk
    have hlen : (c.build now).sent.length = c.sent.length + 1 := by
      simp only [Chronicle.build, List.length_append, List.length_cons, List.length_nil]
    by_cases hlt : k < c.sent.length
    · have := hseq k hlt
      simpa only [Chronicle.build, List.getElem_append_left hlt] using this
    · obtain rfl : k = c.sent.length := by omega
      simp only [Chronicle.build, List.getElem_concat_length]
      exact hup
  · intro r hr
    rcases List.mem_append.mp hr with hr | hr
    · exact hsub r hr
    · rw [List.mem_singleton.mp hr]
      exact List.Subset.refl _
  · intro r hr
    rcases List.mem_append.mp hr with hr | hr
    · exact hreport r hr
    · rw [List.mem_singleton.mp hr]
      exact ⟨c.channel.arrivals, harr, rfl, rfl⟩

theorem Reports.receive (h : c.Reports) (r : Dispatch) (size : Nat) (now : Time) :
    (c.receive r size now).Reports := by
  cases haccepted : (c.channel.arrivals.record r.sequence).1.accepted with
  | false =>
    obtain ⟨-, hdepartures, harrivals, -⟩ := c.channel.receive_refused r.packet size now haccepted
    rw [c.receive_refused haccepted]
    exact h.congr harrivals (congrArg Departures.sequence hdepartures) rfl rfl
  | true =>
    obtain ⟨-, hdepartures, harrivals, -⟩ := c.channel.receive_accepted r.packet size now haccepted
    obtain ⟨hsequence, -⟩ :=
      c.channel.departures.acknowledge_cases r.packet.header.ack r.packet.header.ackBits now
    have hheard :
        ({ c with accepted := c.accepted ++ [r] } : Chronicle).heard = c.heard ++ [r.sequence] := by
      simp only [heard, List.map_append, List.map_cons, List.map_nil]
    rw [c.receive_accepted haccepted]
    refine ⟨?_, ?_, h.sequence_eq, ?_, h.report⟩
    · show Arrivals.Follows _ (({ c with accepted := c.accepted ++ [r] } : Chronicle).heard)
      rw [harrivals, hheard]
      exact h.arrivals.record haccepted
    · show (c.channel.receive r.packet size now).2.departures.sequence + 1 = _
      rw [hdepartures, hsequence]
      exact h.upcoming_eq
    · intro q hq
      show q.heard ⊆ ({ c with accepted := c.accepted ++ [r] } : Chronicle).heard
      rw [hheard]
      exact fun s hs => List.mem_append_left _ (h.heard_subset q hq hs)

theorem Reports.step (h : c.Reports) (a : Action) : (c.step a).Reports := by
  cases a with
  | settle =>
    obtain ⟨hdepartures, harrivals, -⟩ := c.channel.settle_spec
    exact h.congr harrivals (congrArg Departures.sequence hdepartures) rfl rfl
  | enqueue p =>
    simp only [Chronicle.step, Chronicle.enqueue, Channel.enqueue]
    split
    · exact h.congr rfl rfl rfl rfl
    · exact h.congr rfl rfl rfl rfl
  | build now => exact h.build now
  | receive r size now => exact h.receive r size now
  | takeNotices => exact h.congr rfl rfl rfl rfl

theorem Reachable.reports (h : Reachable rule c) : c.Reports := by
  induction h with
  | start peer now => exact reports_start peer now
  | step _ _ ih => exact ih.step _

end

end Chronicle

end Courier
