import Courier.Proofs.Daybook.Verdicts
import Courier.Proofs.Host.Sides
import Courier.Proofs.Traffic

/-!
# The totals of a host

A host shows the sum of the counters of its channels. A channel that is removed
leaves its counters behind, so the sum is over every channel that was ever
created (`totals_conserved`), and it never goes down. What strangers send that
holds no packet is counted besides.
-/

namespace Courier

variable {σ δ : Type}

namespace Host

open Channel (total)

-- ---------------------------------------------------------------------------
-- Moves that remove no channel
-- ---------------------------------------------------------------------------

def strays (h : Host δ) : HostMove σ → Bool
  | .hear d _ =>
    match Packet.decode d.bytes with
    | .error _ => (h.channel? d.source).isNone
    | .ok _ => false
  | _ => false

/-- No channel was removed, and nothing that was counted is lost; strangers sent
`n` datagrams that hold no packet. -/
structure Carried (n : Nat) (h k : Host δ) : Prop where
  retired_eq : k.retired = h.retired
  malformed_eq : k.malformed = h.malformed + n
  total_le : ∀ i, total i h.roster.channels ≤ total i k.roster.channels

section
variable {n : Nat} {peer : Address} {h k : Host δ} {c c' : Channel} {d : Datagram} {now : Time}

theorem carried_self (h : Host δ) : Carried 0 h h := ⟨rfl, rfl, fun _ => Nat.le_refl _⟩

theorem Carried.emit (hk : Carried n h k) (e : HostEvent) : Carried n h (k.emit e) :=
  ⟨hk.retired_eq, hk.malformed_eq, hk.total_le⟩

theorem carried_forall₂ {channels : List Channel}
    (hrel : List.Forall₂ Channel.Counted h.roster.channels channels) :
    Carried 0 h { h with roster := { h.roster with channels } } :=
  ⟨rfl, rfl, fun _ => Channel.total_le hrel⟩

theorem carried_set (hd : h.roster.Distinct) (hc : h.channel? peer = some c)
    (hcounted : c.Counted c') : Carried 0 h (h.setChannel c') := by
  refine carried_forall₂ ?_
  rw [List.forall₂_map_right_iff, List.forall₂_same]
  intro d hmem
  split
  next hsame =>
    -- no other channel has this peer
    have hpeer : d.peer = peer := by
      rw [beq_iff_eq.mp hsame, hcounted.peer_eq, Roster.peer_of_find? hc]
    have hfound : h.channel? peer = some d := hpeer ▸ hd.find?_of_mem hmem
    obtain rfl : c = d := Option.some.inj (hc.symm.trans hfound)
    exact hcounted
  · exact d.counted_self

theorem carried_turnAway (h : Host δ) (peer : Address) (reason : String) (now : Time) :
    Carried 0 h (h.turnAway peer reason now) := by
  simp only [turnAway]
  split
  · exact h.carried_self
  · exact ⟨rfl, rfl, fun _ => Nat.le_refl _⟩

theorem total_le_created (hd : h.roster.Distinct) (hnone : h.roster.find? peer = none)
    (hcounted : (Channel.fresh peer now).Counted c') (i : Traffic.Counter) :
    total i h.roster.channels ≤ total i
      (Roster.set { h.roster with channels := h.roster.channels ++ [.fresh peer now] }
        c').channels := by
  let grown : Host δ :=
    { h with roster := { h.roster with channels := h.roster.channels ++ [.fresh peer now] } }
  have hfound : grown.channel? peer = some (.fresh peer now) := by
    rw [channel?, Roster.find?_append_fresh, hnone, if_pos rfl]
    rfl
  have hset : Carried 0 grown (grown.setChannel c') :=
    carried_set (hd.append_fresh hnone) hfound hcounted
  refine Nat.le_trans ?_ (hset.total_le i)
  rw [Channel.total_append]
  exact Nat.le_add_right _ _

/-- A datagram is counted at the channel of its source, or it is a stray one. -/
theorem carried_hear (hd : h.roster.Distinct) (d : Datagram) (now : Time) :
    Carried (h.strays (.hear d now : HostMove σ)).toNat h (h.hear d now).2 := by
  simp only [strays, hear]
  cases Packet.decode d.bytes with
  | error e =>
    cases hc : h.channel? d.source with
    | none => exact ⟨rfl, rfl, fun _ => Nat.le_refl _⟩
    | some c => exact carried_set hd hc c.counted_recordMalformed
  | ok packet =>
    rcases h.roster.obtain?_cases d.source now with ⟨e, hobtain⟩ | ⟨c, hc, hobtain⟩
      | ⟨hnone, hobtain⟩
    · simp only [hobtain]
      exact h.carried_turnAway d.source e.message now
    · simp only [hobtain]
      exact carried_set hd hc (c.counted_receive packet _ now)
    · simp only [hobtain]
      exact ⟨rfl, rfl, total_le_created hd hnone (Channel.counted_receive _ packet _ now)⟩

theorem carried_send (hd : h.roster.Distinct) (kind : Kind) (critical : Bool) (payload : Bytes) :
    Carried 0 h (h.send peer kind critical payload).2 := by
  rcases h.send_cases peer kind critical payload with hsend | ⟨c, hc, hsend⟩
  · rw [hsend]
    exact h.carried_self
  · rw [hsend]
    exact carried_set hd hc (c.counted_enqueue kind critical payload)

theorem carried_broadcast (h : Host δ) (kind : Kind) (critical : Bool) (payload : Bytes) :
    Carried 0 h (h.broadcast kind critical payload).2 := by
  simp only [broadcast, List.map_map]
  refine carried_forall₂ (forall₂_map (fun c => ?_) _)
  simp only [Function.comp_apply]
  split
  · exact c.counted_enqueue kind critical payload
  · exact c.counted_self

variable [Doorman δ]

theorem carried_review (hd : h.roster.Distinct) (credentials : Credentials)
    (hc : h.channel? peer = some c) : Carried 0 h (h.review c credentials) := by
  have hset {door : δ} {c' : Channel} (hcounted : c.Counted c') :
      Carried 0 h (Host.setChannel { h with doorman := door } c') := by
    have hcarried := carried_set hd hc hcounted
    exact ⟨hcarried.retired_eq, hcarried.malformed_eq, hcarried.total_le⟩
  have hasking : c.Counted ((c.setPhase .asking).enqueue .data false checking).2 :=
    (c.counted_setPhase .asking).trans (Channel.counted_enqueue _ .data false checking)
  have hanswered (phase : Phase) (answer : Bytes) : c.Counted
      ((((c.setPhase .asking).enqueue .data false checking).2.setPhase phase).enqueue .verdict true
        answer).2 :=
    (hasking.trans (Channel.counted_setPhase _ phase)).trans
      (Channel.counted_enqueue _ .verdict true answer)
  simp only [review]
  split
  · exact hset (hanswered _ _)
  · exact (hset (hanswered _ _)).emit _

theorem carried_handle (hd : h.roster.Distinct) (delivery : Delivery) :
    Carried 0 h (h.handle peer delivery) := by
  rw [handle]
  cases hc : h.channel? peer with
  | none => exact h.carried_self
  | some c =>
    dsimp only
    split
    · split
      · split
        · exact h.carried_self.emit _
        · exact carried_review hd _ hc
      · exact h.carried_self
    · split
      · exact h.carried_self.emit _
      · split
        · exact (carried_set hd hc (c.counted_setPhase .playing)).emit _
        · exact h.carried_self

end

-- ---------------------------------------------------------------------------
-- Every move
-- ---------------------------------------------------------------------------

theorem count_retire_all (h : Host δ) (expired : List Channel) (i : Traffic.Counter) :
    (expired.foldl retire h).retired.count i = h.retired.count i + total i expired ∧
      (expired.foldl retire h).malformed = h.malformed := by
  induction expired generalizing h with
  | nil => exact ⟨rfl, rfl⟩
  | cons c rest ih =>
    obtain ⟨hcount, hmalformed⟩ := ih (h.retire c)
    refine ⟨?_, hmalformed⟩
    rw [List.foldl_cons, hcount, retire, Traffic.count_add, Channel.total_cons, Nat.add_assoc]

theorem count_traffic (h : Host δ) (i : Traffic.Counter) : h.traffic.count i =
    h.retired.count i + total i h.roster.channels + if i = .packetsMalformed then h.malformed
      else 0 := by
  have hstart :
      ({ h.retired with packetsMalformed := h.retired.packetsMalformed + h.malformed } :
        Traffic).count i =
      h.retired.count i + if i = .packetsMalformed then h.malformed else 0 := by
    cases i with
    | _ => rfl
  rw [traffic, Traffic.count_updateLoss, Channel.count_foldl_add, hstart, Nat.add_right_comm]

section
variable [Transport σ] [Doorman δ] {h : Host δ} {m : HostMove σ}

def removed (h : Host δ) (m : HostMove σ) : List Channel :=
  h.roster.channels.filter fun c => ((h.act m).channel? c.peer).isNone

theorem removed_eq_nil (hd : h.roster.Distinct) (hm : ∀ now, m ≠ .expire now) :
    h.removed m = [] := by
  refine List.filter_eq_nil_iff.mpr fun c hc hnone => ?_
  have hbefore : (h.channel? c.peer).isSome := by
    rw [channel?, hd.find?_of_mem hc]
    rfl
  rw [Option.isNone_iff_eq_none] at hnone
  simpa [hnone] using channel?_act_isSome hd hm hbefore

theorem removed_expire (hd : h.roster.Distinct) (now : Time) :
    h.removed (.expire now : HostMove σ) = (h.roster.expire now).1 := by
  simp only [removed, act, Roster.expire, List.partition_eq_filter_filter]
  refine List.filter_congr fun c hc => ?_
  rw [channel?, (h.expire_spec now).1, hd.find?_expire, hd.find?_of_mem hc, Option.filter_some]
  cases c.isTimedOut now h.roster.timeout with
  | true => rfl
  | false => rfl

theorem act_carried (hd : h.roster.Distinct) (hm : ∀ now, m ≠ .expire now) :
    Carried (h.strays m).toNat h (h.act m) := by
  cases m with
  | settle => exact carried_forall₂ (forall₂_map Channel.counted_settle _)
  | hear d now => exact carried_hear hd d now
  | fail text => exact h.carried_self.emit _
  | handle peer d => exact carried_handle hd d
  | expire now => exact absurd rfl (hm now)
  | transmit net now =>
    have hsent :=
      carried_forall₂
        (forall₂_transmitAll (fun c net => c.counted_transmit net now) h.roster.channels net)
    exact ⟨rfl, rfl, hsent.total_le⟩
  | collect =>
    have htaken := carried_forall₂ (forall₂_map Channel.counted_takeNotices h.roster.channels)
    exact ⟨rfl, rfl, htaken.total_le⟩
  | send peer kind critical payload => exact carried_send hd kind critical payload
  | broadcast kind critical payload => exact h.carried_broadcast kind critical payload
  | takeEvents => exact ⟨rfl, rfl, fun _ => Nat.le_refl _⟩
  | stop => exact ⟨rfl, rfl, fun _ => Nat.le_refl _⟩

theorem act_turnover (hd : h.roster.Distinct) (m : HostMove σ) :
    (h.act m).malformed = h.malformed + (h.strays m).toNat ∧
      ∀ i, (h.act m).retired.count i = h.retired.count i + total i (h.removed m) ∧
        total i h.roster.channels ≤ total i (h.removed m) + total i (h.act m).roster.channels := by
  by_cases hexpire : ∃ now, m = .expire now
  · obtain ⟨now, rfl⟩ := hexpire
    have hretired :=
      count_retire_all { h with roster := (h.roster.expire now).2 } (h.roster.expire now).1
    refine ⟨(hretired .packetsSent).2, fun i => ?_⟩
    rw [removed_expire hd]
    refine ⟨(hretired i).1, ?_⟩
    rw [act, (h.expire_spec now).1]
    simp only [Roster.expire, List.partition_eq_filter_filter]
    exact Nat.le_of_eq (Channel.total_filter _ _).symm
  · have hcarried := act_carried hd (m := m) fun now heq => hexpire ⟨now, heq⟩
    rw [removed_eq_nil hd fun now heq => hexpire ⟨now, heq⟩]
    refine ⟨hcarried.malformed_eq, fun i => ⟨?_, ?_⟩⟩
    · rw [hcarried.retired_eq, Channel.total_nil, Nat.add_zero]
    · rw [Channel.total_nil, Nat.zero_add]
      exact hcarried.total_le i

theorem count_traffic_le (hd : h.roster.Distinct) (m : HostMove σ) (i : Traffic.Counter) :
    h.traffic.count i ≤ (h.act m).traffic.count i := by
  obtain ⟨hmalformed, hcounts⟩ := act_turnover hd m
  obtain ⟨hretired, htotal⟩ := hcounts i
  rw [count_traffic, count_traffic, hretired, hmalformed]
  split
  · omega
  · omega

end

end Host

namespace Daybook

open Channel (total)

def Entry.stray (e : Entry σ δ) : Bool := e.host.strays e.move

def hosts (b : Daybook σ δ) : List (Host δ) := b.entries.map (·.host) ++ [b.host]

variable [Transport σ] [Doorman δ] {b : Daybook σ δ} {e : Entry σ δ} {peer : Address}

def Entry.removed (e : Entry σ δ) : List Channel := e.host.removed e.move

/-- A channel of the peer is created. -/
def Entry.opens (peer : Address) (e : Entry σ δ) : Bool :=
  (e.host.channel? peer).isNone && (e.after.channel? peer).isSome

/-- Every channel that was ever created, as it is or as it was when it was removed. -/
def everyone (b : Daybook σ δ) : List Channel :=
  b.entries.flatMap Entry.removed ++ b.host.roster.channels

/-- A peer has one channel more after its channel was created, until that is removed. -/
theorem Entry.countP_channels (hd : e.host.roster.Distinct) (peer : Address) :
    e.removed.countP (·.peer == peer) + e.after.roster.channels.countP (·.peer == peer) =
      e.host.roster.channels.countP (·.peer == peer) + (e.opens peer).toNat := by
  have hcount {h : Host δ} (hh : h.roster.Distinct) :
      h.roster.channels.countP (·.peer == peer) = (h.channel? peer).toList.length := by
    rw [List.countP_eq_length_filter, hh.filter_peer]
    rfl
  have hremoved : e.removed.countP (·.peer == peer) =
      if (e.after.channel? peer).isNone then (e.host.channel? peer).toList.length else 0 := by
    rw [← hcount hd, removed, Host.removed, List.countP_filter]
    cases hgone : (e.after.channel? peer).isNone with
    | true =>
      rw [if_pos rfl]
      refine List.countP_congr fun c _ => ?_
      rw [Bool.and_eq_true, and_iff_left_iff_imp]
      intro hpeer
      rw [beq_iff_eq.mp hpeer]
      exact hgone
    | false =>
      rw [if_neg Bool.false_ne_true, List.countP_eq_zero]
      intro c _ hc
      obtain ⟨hpeer, hnone⟩ := Bool.and_eq_true_iff.mp hc
      rw [beq_iff_eq.mp hpeer] at hnone
      exact Bool.false_ne_true (hgone.symm.trans hnone)
  have hafter : e.after.roster.Distinct := Host.act_distinct hd e.move
  rw [hremoved, hcount hd, hcount hafter, opens]
  cases e.host.channel? peer with
  | none => cases e.after.channel? peer <;> rfl
  | some c => cases e.after.channel? peer <;> rfl

-- ---------------------------------------------------------------------------
-- Totals of a run
-- ---------------------------------------------------------------------------

theorem countP_concat {α : Type} (p : α → Bool) (xs : List α) (x : α) :
    (xs ++ [x]).countP p = xs.countP p + (p x).toNat := by
  rw [List.countP_append, List.countP_singleton]
  cases p x <;> rfl

/-- What removed channels had counted, and what strangers sent, is kept. -/
theorem Run.retired (hb : b.Run) : b.host.malformed = b.entries.countP Entry.stray ∧
    ∀ i, b.host.retired.count i = total i (b.entries.flatMap Entry.removed) := by
  induction hb with
  | start config doorman => exact ⟨rfl, fun i => Traffic.count_start i⟩
  | @record b m hb _ ih =>
    obtain ⟨hmalformed, hretired⟩ := ih
    obtain ⟨hstray, hcounts⟩ := Host.act_turnover hb.distinct m
    constructor
    · rw [host_record, entries_record, hstray, hmalformed, countP_concat, Entry.stray]
    · intro i
      rw [host_record, entries_record, (hcounts i).1, hretired, List.flatMap_append,
        List.flatMap_singleton, Channel.total_append, Entry.removed]

theorem Run.countP_everyone (hb : b.Run) (peer : Address) :
    b.everyone.countP (·.peer == peer) = b.entries.countP (Entry.opens peer) := by
  induction hb with
  | start config doorman => rfl
  | @record b m hb _ ih =>
    have hstep := Entry.countP_channels (e := { host := b.host, move := m }) hb.distinct peer
    rw [everyone, List.countP_append] at ih
    rw [everyone, entries_record, countP_concat, ← ih, List.flatMap_append, List.flatMap_singleton,
      List.countP_append, List.countP_append, Nat.add_assoc, Nat.add_assoc]
    exact congrArg _ hstep

theorem Run.pairwise_hosts (hb : b.Run) (i : Traffic.Counter) :
    (b.hosts.map (·.traffic.count i)).Pairwise (· ≤ ·) := by
  induction hb with
  | start config doorman => exact List.pairwise_singleton _ _
  | @record b m hb _ ih =>
    have hgrown : (b.record m).hosts = b.hosts ++ [b.host.act m] := by
      simp [hosts]
    rw [hgrown, List.map_append, List.pairwise_append]
    refine ⟨ih, List.pairwise_singleton _ _, fun x hx y hy => ?_⟩
    obtain rfl := List.mem_singleton.mp hy
    rw [hosts, List.map_append] at ih hx
    exact Nat.le_trans (le_last ih x hx) (Host.count_traffic_le hb.distinct m i)

/-- Each counter that a host shows is the sum of that counter over all channels
that it ever created, of which a peer has one for each time it connected. Those
that timed out count as they were when they were removed. Datagrams of strangers
that hold no packet are counted as well. No counter ever goes down. -/
theorem totals_conserved (hb : b.Reachable) :
    (∀ i, b.host.traffic.count i =
      total i b.everyone + if i = .packetsMalformed then b.entries.countP Entry.stray else 0) ∧
    (∀ peer, b.everyone.countP (·.peer == peer) = b.entries.countP (Entry.opens peer)) ∧
    ∀ i, (b.hosts.map (·.traffic.count i)).Pairwise (· ≤ ·) := by
  obtain ⟨hmalformed, hretired⟩ := hb.run.retired
  refine ⟨fun i => ?_, hb.run.countP_everyone, hb.run.pairwise_hosts⟩
  rw [Host.count_traffic, hretired, hmalformed, everyone, Channel.total_append]

def stranger : Address := { ip := .v4 0x0A000002, port := 4000 }

def disturbed : Daybook Script BanList :=
  let call : Datagram := { source := visitor, bytes := greeting.encode.toOption.getD [] }
  ((({ host := .make {} { users := [] } } : Daybook Script BanList).tick
    { incoming := [(0, call), (0, { call with bytes := [0] }),
      (0, { source := stranger, bytes := [0] })] } 0).tick
    {} (Interval.seconds 6)).tick { incoming := [(0, call)] } (Interval.seconds 7)

theorem totals_conserved_disturbed :
    disturbed.Reachable ∧
      disturbed.everyone.map
        (fun c => (c.peer, c.traffic.packetsReceived, c.traffic.packetsMalformed)) =
        [(visitor, 1, 1), (visitor, 1, 0)] ∧
      disturbed.entries.countP (Entry.opens visitor) = 2 ∧
      disturbed.entries.countP Entry.stray = 1 ∧
      disturbed.host.traffic.count .packetsReceived = 2 ∧
      disturbed.host.traffic.count .packetsMalformed = 2 ∧
      (disturbed.hosts.map (·.traffic.count .packetsMalformed)).Pairwise (· ≤ ·) := by
  have hreachable : disturbed.Reachable := .tick _ _ (.tick _ _ (.tick _ _ (.start _ _)))
  have heveryone :
      disturbed.everyone.map
        (fun c => (c.peer, c.traffic.packetsReceived, c.traffic.packetsMalformed)) =
        [(visitor, 1, 1), (visitor, 1, 0)] := by decide +kernel
  have hreceived : total .packetsReceived disturbed.everyone = 2 := by decide +kernel
  have hmalformed : total .packetsMalformed disturbed.everyone = 1 := by decide +kernel
  have hvisitor : disturbed.everyone.countP (·.peer == visitor) = 2 := by decide +kernel
  have hstray : disturbed.entries.countP Entry.stray = 1 := by decide +kernel
  obtain ⟨hcounts, hopens, hhosts⟩ := totals_conserved hreachable
  refine ⟨hreachable, heveryone, ?_, hstray, ?_, ?_, hhosts _⟩
  · rw [← hopens, hvisitor]
  · rw [hcounts, hreceived, if_neg (by decide)]
  · rw [hcounts, hmalformed, hstray, if_pos rfl]

end Daybook

end Courier
