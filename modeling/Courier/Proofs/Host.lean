import Courier.Host
import Courier.Proofs.Phase
import Courier.Proofs.Roster

/-!
# What a host does, one thing at a time

A tick is a sequence of moves (`foldl_tickMoves`). `act_fate` says once all that
a move can do to the channel of a peer, and `act_emits` which moves pass on what
a peer sent.
-/

namespace Courier

inductive HostMove (σ : Type) where
  | settle
  | hear (d : Datagram) (now : Time)
  | fail (text : String)
  | handle (peer : Address) (d : Delivery)
  | expire (now : Time)
  | transmit (net : σ) (now : Time)
  | collect
  | send (peer : Address) (kind : Kind) (critical : Bool) (payload : Bytes)
  | broadcast (kind : Kind) (critical : Bool) (payload : Bytes)
  | takeEvents
  | stop

def HostMove.isOwners {σ : Type} : HostMove σ → Bool
  | .send .. | .broadcast .. | .takeEvents | .stop => true
  | _ => false

def HostEvent.isMessage : HostEvent → Bool
  | .message .. => true
  | _ => false

namespace Host

variable {σ δ : Type}

-- ---------------------------------------------------------------------------
-- What the parts of a tick change
-- ---------------------------------------------------------------------------

section Parts
variable {h h' h'' : Host δ} {peer : Address} {c c' : Channel}

/-- What was emitted passes on nothing that a peer sent. -/
def Silent (h h' : Host δ) : Prop :=
  ∃ new, h'.events = h.events ++ new ∧ ∀ e ∈ new, e.isMessage = false

theorem Silent.of_events (hevents : h'.events = h.events) : h.Silent h' :=
  ⟨[], hevents.trans (List.append_nil _).symm, by simp⟩

theorem Silent.trans (hfirst : h.Silent h') (hsecond : h'.Silent h'') : h.Silent h'' := by
  obtain ⟨first, hfirst, hquiet⟩ := hfirst
  obtain ⟨second, hsecond, hquiet'⟩ := hsecond
  refine ⟨first ++ second, by rw [hsecond, hfirst, List.append_assoc], fun e he => ?_⟩
  exact (List.mem_append.mp he).elim (hquiet e) (hquiet' e)

theorem Silent.events_kept (hsilent : h.Silent h') : h.events <+: h'.events := by
  obtain ⟨new, hnew, -⟩ := hsilent
  exact ⟨new, hnew.symm⟩

theorem Silent.not_message {d : Delivery} (hsilent : h.Silent h') :
    .message peer d ∉ h'.events.drop h.events.length := by
  obtain ⟨new, hnew, hquiet⟩ := hsilent
  rw [hnew, List.drop_left]
  exact fun hmem => nomatch hquiet _ hmem

theorem silent_emit (h : Host δ) {e : HostEvent} (he : e.isMessage = false) : h.Silent (h.emit e) :=
  ⟨[e], rfl, by simpa using he⟩

theorem turnAway_spec (h : Host δ) (peer : Address) (reason : String) (now : Time) :
    (h.turnAway peer reason now).roster = h.roster ∧ h.Silent (h.turnAway peer reason now) := by
  simp only [turnAway]
  split
  · exact ⟨rfl, .of_events rfl⟩
  · exact ⟨rfl, [.rejected peer reason], rfl, by simp [HostEvent.isMessage]⟩

theorem channel?_of_set (hc : h.channel? peer = some c) (hpeer : c'.peer = c.peer)
    (hset : h'.roster = h.roster.set c') (other : Address) :
    h'.channel? other = if other = peer then some c' else h.channel? other := by
  rw [channel?, hset, Roster.find?_set, hpeer, Roster.peer_of_find? hc]
  split
  next ho => rw [ho, show h.roster.find? peer = some c from hc]; rfl
  · rfl

theorem channel?_of_created {now : Time} (hnone : h.channel? peer = none)
    (hpeer : c'.peer = peer)
    (hset :
      h'.roster = Roster.set { h.roster with channels := h.roster.channels ++ [.fresh peer now] }
        c')
    (other : Address) : h'.channel? other = if other = peer then some c' else h.channel? other := by
  rw [channel?, hset, Roster.find?_set, hpeer, Roster.find?_append_fresh]
  split
  next ho => rw [ho, show h.roster.find? peer = none from hnone]; rfl
  · exact Option.or_none

theorem retire_all (h : Host δ) (expired : List Channel) :
    (expired.foldl retire h).roster = h.roster ∧ h.Silent (expired.foldl retire h) := by
  induction expired generalizing h with
  | nil => exact ⟨rfl, .of_events rfl⟩
  | cons c rest ih =>
    obtain ⟨hroster, hsilent⟩ := ih (h.retire c)
    refine ⟨hroster, .trans ⟨c.notices.map (.notice c.peer) ++ [.timedOut c.peer], ?_, ?_⟩ hsilent⟩
    · exact List.append_assoc _ _ _
    · intro e he
      simp only [List.mem_append, List.mem_map, List.mem_singleton] at he
      rcases he with ⟨n, -, rfl⟩ | rfl
      · rfl
      · rfl

theorem expire_spec (h : Host δ) (now : Time) :
    (h.expire now).roster = (h.roster.expire now).2 ∧ h.Silent (h.expire now) := by
  obtain ⟨hsame, hsilent⟩ :=
    retire_all { h with roster := (h.roster.expire now).2 } (h.roster.expire now).1
  exact ⟨hsame, hsilent⟩

theorem events_retire_all (h : Host δ) (expired : List Channel) :
    (expired.foldl retire h).events =
      h.events ++ expired.flatMap fun c =>
        c.notices.map (.notice c.peer) ++ [.timedOut c.peer] := by
  induction expired generalizing h with
  | nil => exact (List.append_nil _).symm
  | cons c rest ih => simp [ih, retire]

theorem timedOut_of_expire {now : Time} (hc : h.channel? peer = some c)
    (hnone : (h.expire now).channel? peer = none) :
    .timedOut peer ∈ (h.expire now).events.drop h.events.length := by
  have hmem := List.mem_of_find?_eq_some hc
  have hpeer := Roster.peer_of_find? hc
  have hexpired : c ∈ (h.roster.expire now).1 := by
    simp only [channel?, (h.expire_spec now).1, Roster.find?, Roster.expire,
      List.partition_eq_filter_filter] at hnone
    simp only [Roster.expire, List.partition_eq_filter_filter, List.mem_filter]
    refine ⟨hmem, ?_⟩
    cases ht : c.isTimedOut now h.roster.timeout with
    | true => rfl
    | false =>
      exact absurd (beq_iff_eq.mpr hpeer)
        (List.find?_eq_none.mp hnone c (by simp [hmem, ht]))
  have hevents : (h.expire now).events = _ := events_retire_all _ (h.roster.expire now).1
  rw [hevents, List.drop_left, List.mem_flatMap]
  exact ⟨c, hexpired, by simp [hpeer]⟩

theorem forall₂_map {R : Channel → Channel → Prop} {f : Channel → Channel} (hf : ∀ c, R c (f c))
    (cs : List Channel) : List.Forall₂ R cs (cs.map f) := by
  rw [List.forall₂_map_right_iff, List.forall₂_same]
  exact fun c _ => hf c

theorem quiet_broadcast (h : Host δ) (kind : Kind) (critical : Bool) (payload : Bytes) :
    List.Forall₂ Channel.Quiet h.roster.channels
      (h.broadcast kind critical payload).2.roster.channels := by
  simp only [broadcast, List.map_map]
  refine forall₂_map (fun c => ?_) _
  simp only [Function.comp]
  split
  · exact c.quiet_enqueue kind critical payload
  · exact c.quiet_self

theorem send_cases (h : Host δ) (peer : Address) (kind : Kind) (critical : Bool) (payload : Bytes) :
    (h.send peer kind critical payload).2 = h ∨ ∃ c, h.channel? peer = some c ∧
      (h.send peer kind critical payload).2 = h.setChannel (c.enqueue kind critical payload).2 := by
  rw [send]
  cases h.channel? peer with
  | none => exact .inl rfl
  | some c => exact .inr ⟨c, rfl, rfl⟩

theorem forall₂_transmitAll [Transport σ] {R : Channel → Channel → Prop} {now : Time}
    (hR : ∀ c (net : σ), R c (c.transmit net now).2.1) (cs : List Channel) (net : σ) :
    List.Forall₂ R cs (transmitAll now cs net).2.1 := by
  induction cs generalizing net with
  | nil => exact .nil
  | cons c rest ih => exact .cons (hR c net) (ih _)

theorem failed_of_mem_transmitAll [Transport σ] {now : Time} {cs : List Channel} {net : σ}
    {e : HostEvent} (he : e ∈ (transmitAll now cs net).1) :
    ∃ peer text, e = .failed peer (.transport text) := by
  induction cs generalizing net with
  | nil => cases he
  | cons c rest ih =>
    rcases List.mem_append.mp he with hfailed | he
    · obtain ⟨text, -, rfl⟩ := List.mem_map.mp hfailed
      exact ⟨_, text, rfl⟩
    · exact ih he

theorem quiet_transmitAll [Transport σ] (now : Time) (cs : List Channel) (net : σ) :
    List.Forall₂ Channel.Quiet cs (transmitAll now cs net).2.1 ∧
      ∀ e ∈ (transmitAll now cs net).1, e.isMessage = false := by
  refine ⟨forall₂_transmitAll (fun c net => c.quiet_transmit net now) cs net, fun e he => ?_⟩
  obtain ⟨peer, text, rfl⟩ := failed_of_mem_transmitAll he
  rfl

theorem foldl_hear (h : Host δ) (now : Time) (datagrams : List Datagram) :
    datagrams.foldl (fun h d => (h.hear d now).2) h = (h.hearAll now datagrams).2 := by
  induction datagrams generalizing h with
  | nil => rfl
  | cons d rest ih => exact ih _

/-- A datagram is ignored, changes the channel of its source or creates it. -/
theorem hear_spec (h : Host δ) (d : Datagram) (now : Time) :
    h.Silent (h.hear d now).2 ∧
      ((h.hear d now).1 = [] ∧ (h.hear d now).2.roster = h.roster ∨
        (∃ c c', h.channel? d.source = some c ∧ c.Quiet c' ∧
          (h.hear d now).2.roster = h.roster.set c') ∨
        ∃ c', h.channel? d.source = none ∧ (Channel.fresh d.source now).Quiet c' ∧
          (h.hear d now).2.roster =
            Roster.set { h.roster with channels := h.roster.channels ++ [.fresh d.source now] }
              c') := by
  simp only [hear]
  cases Packet.decode d.bytes with
  | error e =>
    cases hc : h.channel? d.source with
    | none => exact ⟨.of_events rfl, .inl ⟨rfl, rfl⟩⟩
    | some c =>
      exact ⟨.of_events rfl, .inr (.inl ⟨c, c.recordMalformed, rfl, .of_notices rfl rfl rfl, rfl⟩)⟩
  | ok packet =>
    rcases h.roster.obtain?_cases d.source now with ⟨e, hobtain⟩ | ⟨c, hc, hobtain⟩
      | ⟨hnone, hobtain⟩
    · obtain ⟨hroster, hsilent⟩ := h.turnAway_spec d.source e.message now
      simp only [hobtain]
      exact ⟨hsilent, .inl ⟨trivial, hroster⟩⟩
    · simp only [hobtain]
      exact ⟨.of_events rfl, .inr (.inl ⟨c, _, hc, c.quiet_receive packet _ now, rfl⟩)⟩
    · simp only [hobtain]
      exact ⟨⟨[.connected d.source], rfl, by simp [HostEvent.isMessage]⟩,
        .inr (.inr ⟨_, hnone, Channel.quiet_receive _ packet _ now, rfl⟩)⟩

theorem channel?_hear {d : Datagram} {now : Time} {x : Delivery} (hx : x ∈ (h.hear d now).1) :
    ((h.hear d now).2.channel? d.source).isSome := by
  rcases (h.hear_spec d now).2 with ⟨hnone, -⟩ | ⟨c, c', hc, hquiet, hset⟩
    | ⟨c', hnone, hquiet, hset⟩
  · rw [hnone] at hx
    cases hx
  · rw [channel?_of_set hc hquiet.peer_eq hset, if_pos rfl]
    rfl
  · rw [channel?_of_created hnone hquiet.peer_eq hset, if_pos rfl]
    rfl

end Parts

section Handling
variable [Doorman δ] {h h' : Host δ} {peer : Address} {c c' : Channel}

inductive Handling (h : Host δ) (peer : Address) (d : Delivery) (h' : Host δ) : Prop
  | dropped (hroster : h'.roster = h.roster) (hsilent : h.Silent h')
  | passed (c : Channel) (hc : h.channel? peer = some c) (hphase : c.phase = .playing)
    (hroster : h'.roster = h.roster) (hevents : h'.events = h.events ++ [.message peer d])
  | reviewed (c c' : Channel) (credentials : Credentials) (hc : h.channel? peer = some c)
    (hkind : d.kind = .credentials) (hdecode : Credentials.decode d.data = .ok credentials)
    (hphase : c.phase = .idle) (hpeer : c'.peer = c.peer)
    (hphase' : c'.phase = if (Doorman.admits h.doorman peer credentials).1 then .admitted
      else .idle)
    (hchanges : c.changes c' = [(.idle, .asking), (.asking, c'.phase)])
    (hset : h'.roster = h.roster.set c') (hsilent : h.Silent h')
  | joined (c c' : Channel) (hc : h.channel? peer = some c) (hphase : c.phase = .admitted)
    (hpeer : c'.peer = c.peer) (hphase' : c'.phase = .playing)
    (hchanges : c.changes c' = [(.admitted, .playing)]) (hset : h'.roster = h.roster.set c')
    (hevents : h'.events = h.events ++ [.message peer d])

/-- An idle peer is asking while its credentials are under review. -/
theorem review_spec (h : Host δ) (credentials : Credentials) (hphase : c.phase = .idle) :
    ∃ c', c'.peer = c.peer ∧
      c'.phase = (if (Doorman.admits h.doorman c.peer credentials).1 then .admitted else .idle) ∧
      c.changes c' = [(.idle, .asking), (.asking, c'.phase)] ∧
      (h.review c credentials).roster = h.roster.set c' ∧ h.Silent (h.review c credentials) := by
  let asking := ((c.setPhase .asking).enqueue .data false checking).2
  let accepted := (Doorman.admits h.doorman c.peer credentials).1
  let answer : Phase := if accepted then .admitted else .idle
  let sent := (asking.setPhase answer).enqueue .verdict true (Verdict.encode accepted)
  have hstill : asking.phase = .asking := c.phase_setPhase .asking
  have hne : asking.phase ≠ answer := by
    rw [hstill]
    cases haccepted : accepted <;> simp [answer, haccepted]
  have hnotices : sent.2.notices = c.notices ++ [.phase .idle .asking, .phase .asking answer] := by
    have hasking : asking.notices = c.notices ++ [.phase .idle .asking] := by
      rw [← hphase]
      exact Channel.notices_setPhase (by simp [hphase])
    simp only [sent, Channel.notices_enqueue]
    rw [Channel.notices_setPhase hne, hasking, hstill, List.append_assoc]
    rfl
  have hanswer : sent.2.phase = answer := by simp [sent]
  refine ⟨sent.2, by simp [sent, asking], hanswer, ?_, ?_, ?_⟩
  · rw [Channel.changes_append hnotices, hanswer]
    rfl
  · simp only [review, Channel.peer_enqueue, Channel.peer_setPhase]
    split
    · rfl
    · rfl
  · simp only [review]
    split
    · exact .of_events rfl
    · exact ⟨[.failed _ _], rfl, by simp [HostEvent.isMessage]⟩

theorem handle_review {d : Delivery} {credentials : Credentials} (hc : h.channel? peer = some c)
    (hkind : d.kind = .credentials) (hidle : c.phase = .idle)
    (hdecode : Credentials.decode d.data = .ok credentials) :
    h.handle peer d = h.review c credentials := by
  simp only [handle, hc, hkind, hidle, hdecode, if_true]

theorem handling (h : Host δ) (peer : Address) (d : Delivery) :
    Handling h peer d (h.handle peer d) := by
  rw [handle]
  cases hc : h.channel? peer with
  | none => exact .dropped rfl (.of_events rfl)
  | some c =>
    dsimp only
    split
    next hkind =>
      split
      next hidle =>
        cases hdecode : Credentials.decode d.data with
        | error e => exact .dropped rfl (h.silent_emit rfl)
        | ok credentials =>
          obtain ⟨c', hpeer, hphase', hchanges, hset, hsilent⟩ := h.review_spec credentials hidle
          rw [Roster.peer_of_find? hc] at hphase'
          exact .reviewed c c' credentials hc hkind hdecode hidle hpeer hphase' hchanges hset
            hsilent
      · exact .dropped rfl (.of_events rfl)
    · split
      next hplaying => exact .passed c hc hplaying rfl rfl
      · split
        next hadmitted =>
          refine .joined c (c.setPhase .playing) hc hadmitted.1 (by simp) (by simp) ?_ rfl rfl
          rw [Channel.changes_append (Channel.notices_setPhase (by simp [hadmitted.1])),
            hadmitted.1]
          rfl
        · exact .dropped rfl (.of_events rfl)

end Handling

-- ---------------------------------------------------------------------------
-- Moves
-- ---------------------------------------------------------------------------

section Fates
variable [Doorman δ]

/-- All that a move can do to the channel of `peer`. -/
inductive Fate (h : Host δ) (peer : Address) : HostMove σ → Option Channel → Option Channel → Prop
  | absent {m : HostMove σ} : Fate h peer m none none
  | created {d : Datagram} {now : Time} {c : Channel} : d.source = peer → c.phase = .idle →
    phasesOf c.notices = [] → Fate h peer (.hear d now) none (some c)
  | kept {m : HostMove σ} {c c' : Channel} : c'.phase = c.phase → c.changes c' = [] →
    Fate h peer m (some c) (some c')
  | removed {now : Time} {c : Channel} : Fate h peer (.expire now) (some c) none
  | reviewed {d : Delivery} {credentials : Credentials} {c c' : Channel} : d.kind = .credentials →
    Credentials.decode d.data = .ok credentials → c.phase = .idle →
    c'.phase = (if (Doorman.admits h.doorman peer credentials).1 then .admitted else .idle) →
    c.changes c' = [(.idle, .asking), (.asking, c'.phase)] →
    Fate h peer (.handle peer d) (some c) (some c')
  | joined {d : Delivery} {c c' : Channel} : c.phase = .admitted → c'.phase = .playing →
    c.changes c' = [(.admitted, .playing)] → Fate h peer (.handle peer d) (some c) (some c')

variable {h h' : Host δ} {m : HostMove σ}

theorem Fate.of_roster (hroster : h'.roster = h.roster) (m : HostMove σ) (peer : Address) :
    Fate h peer m (h.channel? peer) (h'.channel? peer) := by
  rw [channel?, channel?, hroster]
  cases h.roster.find? peer with
  | none => exact .absent
  | some c => exact .kept rfl c.quiet_self.changes_eq

theorem Fate.of_quiet (hrel : List.Forall₂ Channel.Quiet h.roster.channels h'.roster.channels)
    (m : HostMove σ) (peer : Address) : Fate h peer m (h.channel? peer) (h'.channel? peer) := by
  rcases Roster.find?_forall₂ hrel (fun _ _ hq => hq.peer_eq) peer with ⟨hnone, hnone'⟩
    | ⟨c, c', hc, hc', hquiet⟩
  · rw [channel?, channel?, hnone, hnone']
    exact .absent
  · rw [channel?, channel?, hc, hc']
    exact .kept hquiet.phase_eq hquiet.changes_eq

theorem Fate.of_set {other : Address} {x : Option Channel}
    (hother : Fate h other m (h.channel? other) x)
    (hset : ∀ peer, h'.channel? peer = if peer = other then x else h.channel? peer)
    (peer : Address) : Fate h peer m (h.channel? peer) (h'.channel? peer) := by
  rw [hset]
  split
  next heq => exact heq ▸ hother
  · exact .of_roster rfl m peer

end Fates

section Moves
variable [Transport σ] [Doorman δ]

def act (h : Host δ) : HostMove σ → Host δ
  | .settle => { h with roster := h.roster.map fun c => c.settle.2 }
  | .hear d now => (h.hear d now).2
  | .fail text => h.emit (.failed none (.transport text))
  | .handle peer d => h.handle peer d
  | .expire now => h.expire now
  | .transmit net now => (h.transmit net now).1
  | .collect => { h.collect with ticks := h.ticks + 1 }
  | .send peer kind critical payload => (h.send peer kind critical payload).2
  | .broadcast kind critical payload => (h.broadcast kind critical payload).2
  | .takeEvents => h.takeEvents.2
  | .stop => h.stop

def tickMoves (h : Host δ) (net : σ) (now : Time) : List (HostMove σ) :=
  let (inflow, net) := Transport.receive net Packet.maxSize
  let deliveries := ((h.act (.settle : HostMove σ)).hearAll now inflow.datagrams).1
  .settle :: inflow.datagrams.map (.hear · now) ++ inflow.failure.toList.map .fail ++
    deliveries.map (fun (peer, d) => .handle peer d) ++ [.expire now, .transmit net now, .collect]

theorem foldl_tickMoves (h : Host δ) (net : σ) (now : Time) :
    (h.tickMoves net now).foldl act h = (h.tick net now).1 := by
  simp only [tickMoves, tick, absorb, List.cons_append, List.foldl_cons, List.foldl_append,
    List.foldl_nil, List.foldl_map, act, foldl_hear]
  cases (Transport.receive net Packet.maxSize).1.failure with
  | none => rfl
  | some text => rfl

variable {h h' : Host δ} {m : HostMove σ} {peer : Address}

theorem act_fate (hd : h.roster.Distinct) (m : HostMove σ) (peer : Address) :
    Fate h peer m (h.channel? peer) ((h.act m).channel? peer) := by
  cases m with
  | settle => exact .of_quiet (forall₂_map Channel.quiet_settle _) _ peer
  | hear d now =>
    rcases (h.hear_spec d now).2 with ⟨-, hroster⟩ | ⟨c, c', hc, hquiet, hset⟩
      | ⟨c', hnone, hquiet, hset⟩
    · exact .of_roster hroster _ peer
    · exact .of_set (hc ▸ .kept hquiet.phase_eq hquiet.changes_eq)
        (channel?_of_set hc hquiet.peer_eq hset) peer
    · exact .of_set (hnone ▸ .created rfl hquiet.phase_eq hquiet.changes_eq)
        (channel?_of_created hnone hquiet.peer_eq hset) peer
  | fail text => exact .of_roster rfl _ peer
  | handle other d =>
    cases h.handling other d with
    | dropped hroster _ => exact .of_roster hroster _ peer
    | passed c hc hphase hroster _ => exact .of_roster hroster _ peer
    | reviewed c c' credentials hc hkind hdecode hphase hpeer hphase' hchanges hset _ =>
      exact .of_set (hc ▸ .reviewed hkind hdecode hphase hphase' hchanges)
        (channel?_of_set hc hpeer hset) peer
    | joined c c' hc hphase hpeer hphase' hchanges hset _ =>
      exact .of_set (hc ▸ .joined hphase hphase' hchanges) (channel?_of_set hc hpeer hset) peer
  | expire now =>
    show Fate h peer (.expire now) _ ((h.expire now).roster.find? peer)
    rw [(h.expire_spec now).1, hd.find?_expire, channel?]
    cases h.roster.find? peer with
    | none => exact .absent
    | some c =>
      rw [Option.filter_some]
      split
      · exact .kept rfl c.quiet_self.changes_eq
      · exact .removed
  | transmit net now => exact .of_quiet (quiet_transmitAll now _ net).1 _ peer
  | collect => exact .of_quiet (forall₂_map Channel.quiet_takeNotices _) _ peer
  | send other kind critical payload =>
    rcases h.send_cases other kind critical payload with hsend | ⟨c, hc, hsend⟩
    · exact .of_roster (congrArg roster hsend) _ peer
    · have hquiet := c.quiet_enqueue kind critical payload
      exact .of_set (hc ▸ .kept hquiet.phase_eq hquiet.changes_eq)
        (channel?_of_set hc hquiet.peer_eq (congrArg roster hsend)) peer
  | broadcast kind critical payload =>
    exact .of_quiet (h.quiet_broadcast kind critical payload) _ peer
  | takeEvents => exact .of_roster rfl _ peer
  | stop => exact .of_roster rfl _ peer

theorem act_distinct (hd : h.roster.Distinct) (m : HostMove σ) : (h.act m).roster.Distinct := by
  have hquiet {h' : Host δ}
      (hrel : List.Forall₂ Channel.Quiet h.roster.channels h'.roster.channels) :
      h'.roster.Distinct := hd.forall₂ hrel fun _ _ hq => hq.peer_eq
  cases m with
  | settle => exact hquiet (forall₂_map Channel.quiet_settle _)
  | hear d now =>
    rw [act]
    rcases (h.hear_spec d now).2 with ⟨-, hroster⟩ | ⟨c, c', -, -, hset⟩ | ⟨c', hnone, -, hset⟩
    · exact hroster ▸ hd
    · exact hset ▸ hd.set c'
    · exact hset ▸ (hd.append_fresh hnone).set c'
  | fail text => exact hd
  | handle peer d =>
    rw [act]
    cases h.handling peer d with
    | dropped hroster _ => exact hroster ▸ hd
    | passed _ _ _ hroster _ => exact hroster ▸ hd
    | reviewed _ c' _ _ _ _ _ _ _ _ hset _ => exact hset ▸ hd.set c'
    | joined _ c' _ _ _ _ _ hset _ => exact hset ▸ hd.set c'
  | expire now => exact (h.expire_spec now).1 ▸ hd.expire now
  | transmit net now => exact hquiet (quiet_transmitAll now _ net).1
  | collect => exact hquiet (forall₂_map Channel.quiet_takeNotices _)
  | send peer kind critical payload =>
    rw [act]
    rcases h.send_cases peer kind critical payload with hsend | ⟨c, -, hsend⟩
    · rw [hsend]
      exact hd
    · rw [hsend]
      exact hd.set _
  | broadcast kind critical payload => exact hquiet (h.quiet_broadcast kind critical payload)
  | takeEvents => exact hd
  | stop => exact hd

theorem channel?_act_isSome (hd : h.roster.Distinct) (hm : ∀ now, m ≠ .expire now)
    (hc : (h.channel? peer).isSome) : ((h.act m).channel? peer).isSome := by
  have hfate := act_fate hd m peer
  revert hc
  generalize h.channel? peer = x, (h.act m).channel? peer = y at hfate
  cases hfate with
  | absent => exact id
  | removed => exact absurd rfl (hm _)
  | _ => exact fun _ => rfl

theorem act_silent (h : Host δ) (hhandle : ∀ peer d, m ≠ .handle peer d) (htake : m ≠ .takeEvents) :
    h.Silent (h.act m) := by
  cases m with
  | settle => exact .of_events rfl
  | hear d now => exact (h.hear_spec d now).1
  | fail text => exact h.silent_emit rfl
  | handle peer d => exact absurd rfl (hhandle peer d)
  | expire now => exact (h.expire_spec now).2
  | transmit net now => exact ⟨_, rfl, (quiet_transmitAll now _ net).2⟩
  | collect =>
    refine ⟨_, rfl, fun e he => ?_⟩
    obtain ⟨c, -, hc⟩ := List.mem_flatMap.mp he
    obtain ⟨n, -, rfl⟩ := List.mem_map.mp hc
    rfl
  | send peer kind critical payload =>
    refine .of_events ?_
    rw [act]
    rcases h.send_cases peer kind critical payload with hsend | ⟨c, -, hsend⟩
    · rw [hsend]
    · rw [hsend]
      rfl
  | broadcast kind critical payload => exact .of_events rfl
  | takeEvents => exact absurd rfl htake
  | stop => exact .of_events rfl

/-- Only the owner takes events away. -/
theorem act_events (h : Host δ) (htake : m ≠ .takeEvents) : h.events <+: (h.act m).events := by
  by_cases hhandle : ∃ other x, m = .handle other x
  · obtain ⟨other, x, rfl⟩ := hhandle
    rw [act]
    cases h.handling other x with
    | dropped _ hsilent => exact hsilent.events_kept
    | passed _ _ _ _ hevents => exact ⟨_, hevents.symm⟩
    | reviewed _ _ _ _ _ _ _ _ _ _ _ hsilent => exact hsilent.events_kept
    | joined _ _ _ _ _ _ _ _ hevents => exact ⟨_, hevents.symm⟩
  · exact (h.act_silent (fun other x hm => hhandle ⟨other, x, hm⟩) htake).events_kept

/-- What a peer sent is passed on only while it is admitted or plays. -/
theorem act_emits {d : Delivery} (hmem : .message peer d ∈ (h.act m).events.drop h.events.length) :
    m = .handle peer d ∧ ∃ c, h.channel? peer = some c ∧
    (c.phase = .admitted ∨ c.phase = .playing) := by
  by_cases hhandle : ∃ other x, m = .handle other x
  · obtain ⟨other, x, rfl⟩ := hhandle
    rw [act] at hmem
    have hown (hevents : (h.handle other x).events = h.events ++ [.message other x]) :
        peer = other ∧ d = x := by
      rw [hevents, List.drop_left, List.mem_singleton] at hmem
      exact HostEvent.message.inj hmem
    cases h.handling other x with
    | dropped _ hsilent => exact absurd hmem hsilent.not_message
    | passed c hc hphase _ hevents =>
      obtain ⟨rfl, rfl⟩ := hown hevents
      exact ⟨rfl, c, hc, .inr hphase⟩
    | reviewed _ _ _ _ _ _ _ _ _ _ _ hsilent => exact absurd hmem hsilent.not_message
    | joined c _ hc hphase _ _ _ _ hevents =>
      obtain ⟨rfl, rfl⟩ := hown hevents
      exact ⟨rfl, c, hc, .inl hphase⟩
  · by_cases htake : m = .takeEvents
    · subst htake
      rw [show (h.act (.takeEvents : HostMove σ)).events = [] from rfl, List.drop_nil] at hmem
      cases hmem
    · have hsilent := h.act_silent (fun other x hm => hhandle ⟨other, x, hm⟩) htake
      exact absurd hmem hsilent.not_message

end Moves

end Host

end Courier
