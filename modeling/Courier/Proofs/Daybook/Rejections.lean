import Courier.Proofs.Daybook.Lifecycle

/-!
# Turned away once per timeout

A host that has no room for an address reports that, and remembers when it did.
What it remembers is pruned in every tick; still it knows of all reports that are
younger than the timeout, and of no others (`Remembers.kept`). So an address is
reported once per timeout, and never refused without a report.
-/

namespace Courier

variable {σ δ : Type}

theorem Time.since_lt_iff {now start : Time} {span : Interval} (h : start ≤ now) :
    now.since start < span ↔ now < start + span := Nat.sub_lt_iff_lt_add' h

theorem Time.since_le_since {now later : Time} (h : now ≤ later) (start : Time) :
    now.since start ≤ later.since start := Nat.sub_le_sub_right h start

def HostEvent.rejected? : HostEvent → Option Address
  | .rejected peer _ => some peer
  | _ => none

def HostMove.heard? : HostMove σ → Option (Datagram × Time)
  | .hear d now => some (d, now)
  | _ => none

theorem HostMove.eq_hear {m : HostMove σ} {d : Datagram} {now : Time}
    (h : m.heard? = some (d, now)) : m = .hear d now := by
  cases m with
  | hear d' now' =>
    obtain ⟨rfl, rfl⟩ := Prod.mk.inj (Option.some.inj h)
    rfl
  | _ => cases h

namespace Host

structure Lenient (h k : Host δ) : Prop where
  turnedAway_eq : k.turnedAway = h.turnedAway
  told : ∃ new, k.events = h.events ++ new ∧ ∀ e ∈ new, e.rejected? = none

def rejectedBetween (h k : Host δ) : List Address :=
  (k.events.drop h.events.length).filterMap HostEvent.rejected?

/-- All that a move can do to what the host remembers of addresses it turned away. -/
inductive Turning (h : Host δ) : HostMove σ → Host δ → Prop
  | lenient {m : HostMove σ} {k : Host δ} : k.turnedAway = h.turnedAway → h.rejectedBetween k = [] →
      Turning h m k
  | pruned {now : Time} {k : Host δ} :
    k.turnedAway = h.turnedAway.filter (fun entry => now.since entry.2 < h.config.timeout) →
    h.rejectedBetween k = [] → Turning h (.expire now) k
  | reported {d : Datagram} {now : Time} {k : Host δ} :
    (∀ t, (d.source, t) ∈ h.turnedAway → ¬ now.since t < h.config.timeout) →
    k.turnedAway = (d.source, now) :: h.turnedAway.filter (·.1 != d.source) →
    h.rejectedBetween k = [d.source] → Turning h (.hear d now) k

section
variable {peer : Address} {h k : Host δ} {d : Datagram} {now : Time} {e : HostEvent}

theorem rejectedBetween_append {new : List HostEvent} (hnew : k.events = h.events ++ new) :
    h.rejectedBetween k = new.filterMap HostEvent.rejected? := by
  rw [rejectedBetween, hnew, List.drop_left]

theorem Lenient.of_events (hturned : k.turnedAway = h.turnedAway) (hevents : k.events = h.events) :
    Lenient h k :=
  ⟨hturned, [], hevents.trans (List.append_nil _).symm, by simp⟩

theorem lenient_self (h : Host δ) : Lenient h h := .of_events rfl rfl

theorem Lenient.emit (hk : Lenient h k) (he : e.rejected? = none) : Lenient h (k.emit e) := by
  obtain ⟨new, hnew, hnone⟩ := hk.told
  refine ⟨hk.turnedAway_eq, new ++ [e], ?_, ?_⟩
  · rw [Host.emit, hnew, List.append_assoc]
  · simpa [or_imp, forall_and] using ⟨hnone, he⟩

theorem Lenient.turning {m : HostMove σ} (hk : Lenient h k) : Turning h m k := by
  obtain ⟨new, hnew, hnone⟩ := hk.told
  refine .lenient hk.turnedAway_eq ?_
  rw [rejectedBetween_append hnew]
  exact List.filterMap_eq_nil_iff.mpr hnone

-- ---------------------------------------------------------------------------
-- Datagrams
-- ---------------------------------------------------------------------------

theorem turnAway_cases (h : Host δ) (peer : Address) (reason : String) (now : Time) :
    (∃ t, (peer, t) ∈ h.turnedAway ∧ now.since t < h.config.timeout) ∧
    h.turnAway peer reason now = h ∨
      (∀ t, (peer, t) ∈ h.turnedAway → ¬ now.since t < h.config.timeout) ∧
      h.turnAway peer reason now =
        { h with turnedAway := (peer, now) :: h.turnedAway.filter (·.1 != peer) }.emit
          (.rejected peer reason) := by
  simp only [turnAway]
  split
  next hreported =>
    obtain ⟨⟨other, t⟩, hmem, hentry⟩ := List.any_eq_true.mp hreported
    obtain ⟨hpeer, hyoung⟩ := Bool.and_eq_true_iff.mp hentry
    obtain rfl := beq_iff_eq.mp hpeer
    exact .inl ⟨⟨t, hmem, of_decide_eq_true hyoung⟩, rfl⟩
  next hreported =>
    refine .inr ⟨fun t hmem hyoung => hreported ?_, rfl⟩
    exact List.any_eq_true.mpr ⟨(peer, t), hmem, by simpa using hyoung⟩

theorem hear_turning (h : Host δ) (d : Datagram) (now : Time) :
    Turning h (.hear d now : HostMove σ) (h.hear d now).2 := by
  simp only [hear]
  cases Packet.decode d.bytes with
  | error e =>
    cases h.channel? d.source with
    | none => exact Lenient.turning (.of_events rfl rfl)
    | some c => exact Lenient.turning (.of_events rfl rfl)
  | ok packet =>
    rcases h.roster.obtain?_cases d.source now with ⟨e, hobtain⟩ | ⟨c, -, hobtain⟩ | ⟨-, hobtain⟩
    · simp only [hobtain]
      rcases h.turnAway_cases d.source e.message now with ⟨-, heq⟩ | ⟨hold, heq⟩
      · rw [heq]
        exact h.lenient_self.turning
      · rw [heq]
        refine .reported hold rfl ?_
        rw [rejectedBetween, emit, List.drop_left]
        rfl
    · simp only [hobtain]
      exact Lenient.turning (.of_events rfl rfl)
    · simp only [hobtain]
      refine Lenient.turning ⟨rfl, [.connected d.source], rfl, ?_⟩
      simp [HostEvent.rejected?]

theorem hear_refused {p : Packet} (now : Time) (hdecode : Packet.decode d.bytes = .ok p)
    (hnone : h.channel? d.source = none) (hfull : h.roster.capacity ≤ h.roster.size)
    (hpos : 0 < h.config.timeout) :
    ∃ t, (d.source, t) ∈ (h.hear d now).2.turnedAway ∧ now.since t < h.config.timeout := by
  have hobtain : h.roster.obtain? d.source now = (.error ⟨h.roster.capacity⟩, h.roster) := by
    rw [Roster.obtain?, show h.roster.find? d.source = none from hnone]
    exact if_pos hfull
  simp only [hear, hdecode, hobtain]
  rcases h.turnAway_cases d.source (RosterFull.message ⟨h.roster.capacity⟩) now with ⟨hknown, heq⟩
    | ⟨-, heq⟩
  · rw [heq]
    exact hknown
  · rw [heq]
    refine ⟨now, List.mem_cons_self, ?_⟩
    rwa [Time.since, Nat.sub_self]

-- ---------------------------------------------------------------------------
-- All other moves
-- ---------------------------------------------------------------------------

theorem turnedAway_retire_all (h : Host δ) (expired : List Channel) :
    (expired.foldl retire h).turnedAway = h.turnedAway := by
  induction expired generalizing h with
  | nil => rfl
  | cons c rest ih => exact ih _

theorem expire_turning (h : Host δ) (now : Time) :
    Turning h (.expire now : HostMove σ) (h.expire now) := by
  refine .pruned ?_ ?_
  · simp only [expire, turnedAway_retire_all, config_retire_all]
  · rw [rejectedBetween_append (h.events_expire now), List.filterMap_eq_nil_iff]
    intro e he
    obtain ⟨c, -, hc⟩ := List.mem_flatMap.mp he
    split at hc
    · rcases List.mem_append.mp hc with hnotice | htimedOut
      · obtain ⟨n, -, rfl⟩ := List.mem_map.mp hnotice
        rfl
      · rw [List.mem_singleton.mp htimedOut]
        rfl
    · cases hc

theorem lenient_send (h : Host δ) (kind : Kind) (critical : Bool) (payload : Bytes) :
    Lenient h (h.send peer kind critical payload).2 := by
  rcases h.send_cases peer kind critical payload with hsend | ⟨c, -, hsend⟩
  · rw [hsend]
    exact h.lenient_self
  · rw [hsend]
    exact .of_events rfl rfl

theorem lenient_transmit [Transport σ] (h : Host δ) (net : σ) (now : Time) :
    Lenient h (h.transmit net now).1 := by
  refine ⟨rfl, _, rfl, fun e he => ?_⟩
  obtain ⟨other, text, rfl⟩ := failed_of_mem_transmitAll he
  rfl

theorem lenient_collect (h : Host δ) (ticks : Nat) : Lenient h { h.collect with ticks } := by
  refine ⟨rfl, _, rfl, fun e he => ?_⟩
  obtain ⟨c, -, hc⟩ := List.mem_flatMap.mp he
  obtain ⟨n, -, rfl⟩ := List.mem_map.mp hc
  rfl

variable [Doorman δ]

theorem lenient_review (h : Host δ) (c : Channel) (credentials : Credentials) :
    Lenient h (h.review c credentials) := by
  simp only [review]
  split
  · exact .of_events rfl rfl
  · exact .emit (.of_events rfl rfl) rfl

theorem lenient_handle (h : Host δ) (peer : Address) (d : Delivery) :
    Lenient h (h.handle peer d) := by
  rw [handle]
  split
  · exact h.lenient_self
  · split
    · split
      · split
        · exact h.lenient_self.emit rfl
        · exact h.lenient_review _ _
      · exact h.lenient_self
    · split
      · exact h.lenient_self.emit rfl
      · split
        · exact .emit (.of_events rfl rfl) rfl
        · exact h.lenient_self

theorem act_turning [Transport σ] (h : Host δ) (m : HostMove σ) : Turning h m (h.act m) := by
  cases m with
  | settle => exact Lenient.turning (.of_events rfl rfl)
  | hear d now => exact h.hear_turning d now
  | fail text => exact (h.lenient_self.emit rfl).turning
  | handle peer d => exact (h.lenient_handle peer d).turning
  | expire now => exact h.expire_turning now
  | transmit net now => exact (h.lenient_transmit net now).turning
  | collect => exact (h.lenient_collect _).turning
  | send peer kind critical payload => exact (h.lenient_send kind critical payload).turning
  | broadcast kind critical payload => exact Lenient.turning (.of_events rfl rfl)
  | takeEvents => exact .lenient rfl (by rw [rejectedBetween, act, takeEvents, List.drop_nil]; rfl)
  | stop => exact Lenient.turning (.of_events rfl rfl)

end

end Host

namespace Daybook

variable [Transport σ] [Doorman δ] {b : Daybook σ δ} {m : HostMove σ} {peer : Address}
  {stamps : List Time}

/-- The times of the reports that the peer was turned away. -/
def rejections (peer : Address) (entries : List (Entry σ δ)) : List (Option Time) :=
  entries.flatMap fun e =>
  ((e.emitted.filterMap HostEvent.rejected?).filter (· == peer)).map fun _ => e.move.time?

theorem rejections_concat (entries : List (Entry σ δ)) (e : Entry σ δ) :
    rejections peer (entries ++ [e]) =
      rejections peer entries ++ ((e.host.rejectedBetween e.after).filter (· == peer)).map fun _ =>
      e.move.time? := by
  rw [rejections, List.flatMap_append, List.flatMap_singleton]
  rfl

theorem times_record (b : Daybook σ δ) (m : HostMove σ) :
    (b.record m).times = b.times ++ m.time?.toList := by
  rw [times, entries_record, List.filterMap_append]
  cases htime : m.time? with
  | none => simp [times, htime]
  | some now => simp [times, htime]

theorem times_subset_record (b : Daybook σ δ) (m : HostMove σ) : b.times ⊆ (b.record m).times := by
  rw [times_record]
  exact List.subset_append_left _ _

theorem le_of_mem_times {now : Time} (htimes : (b.record m).times.Pairwise (· ≤ ·))
    (htime : m.time? = some now) : ∀ s ∈ (b.record m).times, s ≤ now := by
  rw [times_record, htime] at htimes ⊢
  exact le_last htimes

/-- The peer was turned away at these times. Of those the host remembers the ones
that are younger than the timeout now or later. -/
structure Remembers (peer : Address) (stamps : List Time) (b : Daybook σ δ) : Prop where
  reported : rejections peer b.entries = stamps.map some
  past : ∀ t ∈ stamps, t ∈ b.times
  apart : stamps.Pairwise fun s t => s + b.host.config.timeout ≤ t
  kept : ∀ n t, (∀ s ∈ b.times, s ≤ n) → n.since t < b.host.config.timeout →
    ((peer, t) ∈ b.host.turnedAway ↔ t ∈ stamps)

theorem Run.config_record (hb : b.Run) (m : HostMove σ) :
    (b.record m).host.config = b.host.config :=
  (hb.configured.1.act m).config_eq

theorem Remembers.same (hr : Remembers peer stamps b) (hb : b.Run)
    (hnone : (b.host.rejectedBetween (b.host.act m)).filter (· == peer) = [])
    (hkept : ∀ n t, (∀ s ∈ (b.record m).times, s ≤ n) → n.since t < b.host.config.timeout →
      ((peer, t) ∈ (b.host.act m).turnedAway ↔ (peer, t) ∈ b.host.turnedAway)) :
    Remembers peer stamps (b.record m) := by
  have htimes := b.times_subset_record m
  constructor
  · rw [entries_record, rejections_concat, Entry.after, hnone, hr.reported, List.map_nil,
      List.append_nil]
  · exact fun t ht => htimes (hr.past t ht)
  · rw [hb.config_record]
    exact hr.apart
  · rw [hb.config_record]
    intro n t hlatest hyoung
    exact (hkept n t hlatest hyoung).trans (hr.kept n t (fun s hs => hlatest s (htimes hs)) hyoung)

theorem Remembers.report {d : Datagram} {now : Time} (hr : Remembers peer stamps b) (hb : b.Run)
    (hsource : d.source = peer) (hlatest : ∀ s ∈ b.times, s ≤ now)
    (hold : ∀ t, (d.source, t) ∈ b.host.turnedAway → ¬ now.since t < b.host.config.timeout)
    (hturned : (b.host.act (.hear d now : HostMove σ)).turnedAway =
      (d.source, now) :: b.host.turnedAway.filter (·.1 != d.source))
    (hrejected : b.host.rejectedBetween (b.host.act (.hear d now : HostMove σ)) = [d.source]) :
    Remembers peer (stamps ++ [now]) (b.record (.hear d now)) := by
  subst hsource
  have htimes : (b.record (.hear d now)).times = b.times ++ [now] := times_record b _
  have hapart : ∀ s ∈ stamps, s + b.host.config.timeout ≤ now := by
    intro s hs
    refine Nat.le_of_not_lt fun hlt => ?_
    have hyoung := (Time.since_lt_iff (hlatest s (hr.past s hs))).mpr hlt
    exact hold s ((hr.kept now s hlatest hyoung).mpr hs) hyoung
  constructor
  · rw [entries_record, rejections_concat, Entry.after, hrejected, hr.reported]
    simp [HostMove.time?]
  · rw [htimes]
    intro t ht
    rcases List.mem_append.mp ht with ht | ht
    · exact List.mem_append_left _ (hr.past t ht)
    · exact List.mem_append_right _ ht
  · rw [hb.config_record, List.pairwise_append]
    refine ⟨hr.apart, List.pairwise_singleton _ _, fun s hs t ht => ?_⟩
    obtain rfl := List.mem_singleton.mp ht
    exact hapart s hs
  · rw [hb.config_record, host_record, hturned, htimes]
    intro n t hn hyoung
    have hnow : now ≤ n := hn now (List.mem_append_right _ (List.mem_singleton_self now))
    -- what is forgotten for the new report would not count any more
    have hgone : t ∉ stamps := by
      intro ht
      have hle : t ≤ n := Nat.le_trans (hlatest t (hr.past t ht)) hnow
      exact Nat.not_le_of_lt ((Time.since_lt_iff hle).mp hyoung) (Nat.le_trans (hapart t ht) hnow)
    simp [hgone]

theorem Remembers.record (hr : Remembers peer stamps b) (hb : b.Run)
    (htimes : (b.record m).times.Pairwise (· ≤ ·)) :
    ∃ stamps', Remembers peer stamps' (b.record m) := by
  cases hturning : b.host.act_turning m with
  | lenient hsame hnone =>
    refine ⟨stamps, hr.same hb (by rw [hnone]; rfl) fun n t _ _ => ?_⟩
    rw [hsame]
  | @pruned now _ hfilter hnone =>
    refine ⟨stamps, hr.same hb (by rw [hnone]; rfl) fun n t hlatest hyoung => ?_⟩
    have hnow : now ≤ n := hlatest now (by simp [times_record, HostMove.time?])
    -- what is young later is young now
    have hyoungNow := Nat.lt_of_le_of_lt (Time.since_le_since hnow t) hyoung
    rw [hfilter, List.mem_filter]
    simp [hyoungNow]
  | @reported d now _ hold hturned hrejected =>
    have hlatest : ∀ s ∈ b.times, s ≤ now :=
      fun s hs => le_of_mem_times htimes rfl s (b.times_subset_record _ hs)
    by_cases hsource : d.source = peer
    · exact ⟨_, hr.report hb hsource hlatest hold hturned hrejected⟩
    · refine ⟨stamps, hr.same hb ?_ fun n t _ _ => ?_⟩
      · rw [hrejected]
        simp [hsource]
      · have hne : peer ≠ d.source := fun heq => hsource heq.symm
        rw [hturned]
        simp [hne]

theorem Run.remembers (hb : b.Run) (htimes : b.times.Pairwise (· ≤ ·)) (peer : Address) :
    ∃ stamps, Remembers peer stamps b := by
  induction hb with
  | start config doorman => exact ⟨[], rfl, by simp, .nil, fun n t _ _ => by simp [Host.make]⟩
  | @record b m hb _ ih =>
    have hbefore : b.times.Pairwise (· ≤ ·) := by
      rw [times_record] at htimes
      exact (List.pairwise_append.mp htimes).1
    obtain ⟨stamps, hr⟩ := ih hbefore
    exact hr.record hb htimes

/-- A refused packet comes less than the timeout after a report, or is reported. -/
theorem Run.reported_of_refused {d : Datagram} {now : Time} {p : Packet} (hb : b.Run)
    (htimes : (b.record (.hear d now)).times.Pairwise (· ≤ ·))
    (hdecode : Packet.decode d.bytes = .ok p) (hnone : b.host.channel? d.source = none)
    (hfull : b.host.roster.capacity ≤ b.host.roster.size) (hpos : 0 < b.host.config.timeout) :
    ∃ t, some t ∈ rejections d.source (b.record (.hear d now)).entries ∧ t ≤ now ∧
      now < t + b.host.config.timeout := by
  have hheard : (b.record (.hear d now)).Run := hb.record (by simp)
  obtain ⟨stamps, hr⟩ := hheard.remembers htimes d.source
  have hlatest := le_of_mem_times htimes rfl
  obtain ⟨t, hmem, hyoung⟩ := Host.hear_refused now hdecode hnone hfull hpos
  have ht : t ∈ stamps := (hr.kept now t hlatest (by rwa [hb.config_record])).mp hmem
  have hle := hlatest t (hr.past t ht)
  refine ⟨t, ?_, hle, (Time.since_lt_iff hle).mp hyoung⟩
  rw [hr.reported]
  exact List.mem_map_of_mem ht

/-- If a host is ticked at times that do not go backwards, with whatever comes in:
two reports that an address was turned away are at least the timeout apart, and
when a packet of an address without a channel is refused for want of room, that
address was reported less than the timeout ago, or is now. -/
theorem rejections_once_per_timeout (hb : b.Reachable) (htimes : b.times.Pairwise (· ≤ ·))
    (hpos : 0 < b.host.config.timeout) :
    (∀ peer, ∃ stamps : List Time, rejections peer b.entries = stamps.map some ∧
      stamps.Pairwise fun s t => s + b.host.config.timeout ≤ t) ∧
    ∀ before e after d now, b.entries = before ++ e :: after → e.move = .hear d now →
      (∃ p, Packet.decode d.bytes = .ok p) → e.host.channel? d.source = none →
      e.host.config.maxPeers ≤ e.host.roster.size →
      ∃ t, some t ∈ rejections d.source (before ++ [e]) ∧ t ≤ now ∧
      now < t + b.host.config.timeout := by
  have hrun := hb.run
  refine ⟨fun peer => ?_, fun before e after d now hsplit hmove ⟨p, hdecode⟩ hnone hfull => ?_⟩
  · obtain ⟨stamps, hr⟩ := hrun.remembers htimes peer
    exact ⟨stamps, hr.reported, hr.apart⟩
  · have hconfigured := hrun.configured.2 e (by simp [hsplit])
    rw [hconfigured.config_eq, ← hconfigured.capacity_eq] at hfull
    rw [← hconfigured.config_eq] at hpos ⊢
    obtain ⟨h, move⟩ := e
    obtain rfl : move = .hear d now := hmove
    refine (hrun.earlier hsplit).reported_of_refused (htimes.sublist ?_) hdecode hnone hfull hpos
    rw [times, times, hsplit]
    exact (List.Sublist.append_left (.cons_cons _ (List.nil_sublist after)) before).filterMap _

def latecomer : Address := { ip := .v4 0x0A000003, port := 4000 }

def callFrom (source : Address) : Datagram := { source, bytes := greeting.encode.toOption.getD [] }

def besieged : Daybook Script BanList :=
  ((({ host := .make { maxPeers := 1 } { users := [] } } : Daybook Script BanList).tick
    { incoming := [(0, callFrom visitor), (0, callFrom latecomer), (0, callFrom latecomer)] }
      0).tick
    { incoming := [(0, callFrom latecomer)] } (Interval.seconds 4)).tick
    { incoming := [(0, callFrom latecomer)] } (Interval.seconds 6)

def ignored : Entry Script BanList := besieged.entries.get ⟨10, by decide +kernel⟩

theorem rejections_once_per_timeout_besieged :
    besieged.Reachable ∧ besieged.times.Pairwise (· ≤ ·) ∧
      besieged.host.config.timeout = Interval.seconds 5 ∧
      rejections latecomer besieged.entries = [some 0, some (Interval.seconds 6)] ∧
      (∃ stamps : List Time, rejections latecomer besieged.entries = stamps.map some ∧
        stamps.Pairwise fun s t => s + besieged.host.config.timeout ≤ t) ∧
      ignored.emitted = [] ∧
      ∃ t, some t ∈ rejections latecomer (besieged.entries.take 10 ++ [ignored]) ∧
        t ≤ Interval.seconds 4 ∧
        Interval.seconds 4 < t + besieged.host.config.timeout := by
  have hreachable : besieged.Reachable := .tick _ _ (.tick _ _ (.tick _ _ (.start _ _)))
  have htimes : besieged.times.Pairwise (· ≤ ·) := by decide +kernel
  have htimeout : besieged.host.config.timeout = Interval.seconds 5 := by decide +kernel
  have hentries :
      besieged.entries = besieged.entries.take 10 ++ ignored :: besieged.entries.drop 11 := by
    rw [ignored, List.get_eq_getElem, ← List.drop_eq_getElem_cons, List.take_append_drop]
  have hmove : ignored.move = .hear (callFrom latecomer) (Interval.seconds 4) :=
    HostMove.eq_hear (by decide +kernel)
  have hdecodes : (Packet.decode (callFrom latecomer).bytes).isOk = true := by decide +kernel
  have hdecode : ∃ p, Packet.decode (callFrom latecomer).bytes = .ok p := by
    cases hpacket : Packet.decode (callFrom latecomer).bytes with
    | ok p => exact ⟨p, rfl⟩
    | error e => simp [hpacket, Except.isOk, Except.toBool] at hdecodes
  have hnone : ignored.host.channel? (callFrom latecomer).source = none :=
    Option.isNone_iff_eq_none.mp (by decide +kernel)
  have hfull : ignored.host.config.maxPeers ≤ ignored.host.roster.size := by decide +kernel
  obtain ⟨hapart, hreported⟩ :=
    rejections_once_per_timeout hreachable htimes (by rw [htimeout]; decide)
  exact ⟨hreachable, htimes, htimeout, by decide +kernel, hapart latecomer, by decide +kernel,
    hreported _ ignored _ (callFrom latecomer) _ hentries hmove hdecode hnone hfull⟩

end Daybook

end Courier
