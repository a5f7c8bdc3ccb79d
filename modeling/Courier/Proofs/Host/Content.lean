import Courier.Proofs.Channel.Content
import Courier.Proofs.Host

/-!
# What a host holds for its peers

`act_holds`: a move adds to what is held for a peer only what it queues, and
`Queued` lists all that a move can queue. A verdict is queued by the owner of
the host, or when credentials of an idle peer are reviewed.
-/

namespace Courier

namespace Roster

/-- A channel of the peer holds the message. -/
def Holds (r : Roster) (peer : Address) (x : Message) : Prop :=
  ∃ c ∈ r.channels, c.peer = peer ∧ c.Holds x

section
variable {r r' : Roster} {c : Channel} {peer other : Address} {x : Message} {now : Time}

theorem Holds.of_set (h : (r.set c).Holds peer x) : c.peer = peer ∧ c.Holds x ∨ r.Holds peer x := by
  obtain ⟨d, hd, hpeer, hx⟩ := h
  obtain ⟨e, he, rfl⟩ := List.mem_map.mp hd
  split at hpeer
  next hsame =>
    rw [if_pos hsame] at hx
    exact .inl ⟨hpeer, hx⟩
  next hother =>
    rw [if_neg hother] at hx
    exact .inr ⟨e, he, hpeer, hx⟩

theorem Holds.of_replaced {c' : Channel} {new : Prop} (h : (r.set c').Holds peer x)
    (hc : r.find? other = some c) (hpeer : c'.peer = c.peer)
    (hheld : c'.Holds x → new ∨ c.Holds x) : peer = other ∧ new ∨ r.Holds peer x := by
  have hother : c.peer = other := peer_of_find? hc
  rcases h.of_set with ⟨hsame, hx⟩ | hold
  · rw [hpeer, hother] at hsame
    rcases hheld hx with hnew | hold
    · exact .inl ⟨hsame.symm, hnew⟩
    · exact .inr ⟨c, List.mem_of_find?_eq_some hc, hother.trans hsame, hold⟩
  · exact .inr hold

theorem Holds.of_append_fresh
    (h : ({ r with channels := r.channels ++ [.fresh other now] } : Roster).Holds peer x) :
    r.Holds peer x := by
  obtain ⟨d, hd, hpeer, hx⟩ := h
  rcases List.mem_append.mp hd with hold | hfresh
  · exact ⟨d, hold, hpeer, hx⟩
  · obtain rfl := List.mem_singleton.mp hfresh
    exact absurd hx Channel.not_holds_fresh

theorem Holds.of_expire (h : (r.expire now).2.Holds peer x) : r.Holds peer x := by
  obtain ⟨d, hd, hpeer, hx⟩ := h
  simp only [Roster.expire, List.partition_eq_filter_filter] at hd
  exact ⟨d, (List.mem_filter.mp hd).1, hpeer, hx⟩

theorem Holds.of_forall₂ {new : Address → Message → Prop} (h : r'.Holds peer x)
    (hrel : List.Forall₂ (fun c c' => c'.peer = c.peer ∧ ∀ x, c'.Holds x → new c.peer x ∨ c.Holds x)
      r.channels r'.channels) : new peer x ∨ r.Holds peer x := by
  obtain ⟨d, hd, rfl, hx⟩ := h
  obtain ⟨_, _, channels⟩ := r
  obtain ⟨_, _, channels'⟩ := r'
  simp only [Holds] at hrel hd ⊢
  induction hrel with
  | nil => cases hd
  | @cons c c' _ _ hc _ ih =>
    rcases List.mem_cons.mp hd with rfl | hd
    · rw [hc.1]
      rcases hc.2 x hx with hnew | hold
      · exact .inl hnew
      · exact .inr ⟨c, List.mem_cons_self, rfl, hold⟩
    · rcases ih hd with hnew | ⟨e, he, hpeer, hold⟩
      · exact .inl hnew
      · exact .inr ⟨e, List.mem_cons_of_mem _ he, hpeer, hold⟩

end

end Roster

namespace Host

variable {σ δ : Type}

-- ---------------------------------------------------------------------------
-- Parts of a tick
-- ---------------------------------------------------------------------------

section
variable {h : Host δ} {c : Channel} {peer : Address} {x : Message} {now : Time}

theorem holds_of_hear {dg : Datagram} (hx : (h.hear dg now).2.roster.Holds peer x) :
    h.roster.Holds peer x := by
  simp only [hear] at hx
  cases hdecode : Packet.decode dg.bytes with
  | error e =>
    rw [hdecode] at hx
    cases hc : h.channel? dg.source with
    | none =>
      rw [hc] at hx
      exact hx
    | some c =>
      rw [hc] at hx
      exact (Roster.Holds.of_replaced hx hc rfl .inr).resolve_left (·.2)
  | ok packet =>
    rw [hdecode] at hx
    rcases h.roster.obtain?_cases dg.source now with ⟨e, hobtain⟩ | ⟨c, hc, hobtain⟩
      | ⟨hnone, hobtain⟩
    · simp only [hobtain, (h.turnAway_spec dg.source e.message now).1] at hx
      exact hx
    · simp only [hobtain] at hx
      have hpeer := (c.quiet_receive packet dg.bytes.length now).peer_eq
      exact (Roster.Holds.of_replaced hx hc hpeer fun hx => .inr hx.of_receive).resolve_left (·.2)
    · simp only [hobtain] at hx
      rcases Roster.Holds.of_set hx with ⟨-, hheld⟩ | hold
      · exact absurd hheld.of_receive Channel.not_holds_fresh
      · exact hold.of_append_fresh

end

section
variable [Doorman δ]

/-- A review queues the note for the peer and the verdict of the doorman. -/
theorem review_holds (h : Host δ) (c : Channel) (credentials : Credentials) :
    ∃ c', c'.peer = c.peer ∧ (h.review c credentials).roster = h.roster.set c' ∧
      ∀ x, c'.Holds x →
        ((∃ id, x ∈ Outbox.pieces .data false id checking) ∨
          ∃ id, x ∈ Outbox.pieces .verdict true id
            (Verdict.encode (Doorman.admits h.doorman c.peer credentials).1)) ∨ c.Holds x := by
  let asking := ((c.setPhase .asking).enqueue .data false checking).2
  let accepted := (Doorman.admits h.doorman c.peer credentials).1
  let answered := asking.setPhase (if accepted then .admitted else .idle)
  refine ⟨(answered.enqueue .verdict true (Verdict.encode accepted)).2, by simp [answered, asking],
    ?_, ?_⟩
  · simp only [review, Channel.peer_enqueue, Channel.peer_setPhase]
    split
    · rfl
    · rfl
  · intro x hx
    rcases hx.of_enqueue with hverdict | hx
    · exact .inl (.inr ⟨_, hverdict⟩)
    · rcases hx.of_setPhase.of_enqueue with hnote | hx
      · exact .inl (.inl ⟨_, hnote⟩)
      · exact .inr hx.of_setPhase

end

theorem mem_sent_transmitAll {net : Script} {now : Time} {cs : List Channel} {peer : Address}
    {bytes : Bytes} :
    (peer, bytes) ∈ (transmitAll now cs net).2.2.sent ↔
      (∃ c ∈ cs, c.peer = peer ∧ (c.build now).1.encode = .ok bytes) ∨
      (peer, bytes) ∈ net.sent := by
  induction cs generalizing net with
  | nil => simp [transmitAll]
  | cons c rest ih =>
    simp only [transmitAll, ih, Channel.mem_sent_transmit, List.exists_mem_cons_iff]
    rw [or_assoc, or_left_comm]

-- ---------------------------------------------------------------------------
-- Moves
-- ---------------------------------------------------------------------------

inductive Queued [Doorman δ] (h : Host δ) : HostMove σ → Address → Message → Prop
  | sent {peer : Address} {kind : Kind} {critical : Bool} {id : UInt8} {payload : Bytes}
      {x : Message} :
    x ∈ Outbox.pieces kind critical id payload → Queued h (.send peer kind critical payload) peer x
  | spread {peer : Address} {kind : Kind} {critical : Bool} {id : UInt8} {payload : Bytes}
      {x : Message} :
    x ∈ Outbox.pieces kind critical id payload → Queued h (.broadcast kind critical payload) peer x
  | checking {peer : Address} {d : Delivery} {id : UInt8} {x : Message} :
    x ∈ Outbox.pieces .data false id Host.checking → Queued h (.handle peer d) peer x
  | answer {peer : Address} {d : Delivery} {c : Channel} {credentials : Credentials} {id : UInt8}
      {x : Message} :
    h.channel? peer = some c → d.kind = .credentials → c.phase = .idle →
    Credentials.decode d.data = .ok credentials →
    x ∈ Outbox.pieces .verdict true id
      (Verdict.encode (Doorman.admits h.doorman peer credentials).1) →
    Queued h (.handle peer d) peer x

section
variable [Doorman δ] {h : Host δ} {peer : Address} {x : Message}

theorem handle_other {c : Channel} {d : Delivery} (hc : h.channel? peer = some c)
    (hother : ¬ (d.kind = .credentials ∧ c.phase = .idle)) :
    (h.handle peer d).roster = h.roster ∨
      (h.handle peer d).roster = h.roster.set (c.setPhase .playing) := by
  simp only [handle, hc]
  split
  next hkind =>
    split
    next hidle => exact absurd ⟨hkind, hidle⟩ hother
    · exact .inl rfl
  · split
    · exact .inl rfl
    · split
      · exact .inr rfl
      · exact .inl rfl

theorem holds_of_handle {other : Address} {d : Delivery}
    (hx : (h.handle other d).roster.Holds peer x) :
    h.Queued (.handle other d : HostMove σ) peer x ∨ h.roster.Holds peer x := by
  cases hc : h.channel? other with
  | none =>
    simp only [handle, hc] at hx
    exact .inr hx
  | some c =>
    by_cases hreview : d.kind = .credentials ∧ c.phase = .idle
    · obtain ⟨hkind, hidle⟩ := hreview
      cases hdecode : Credentials.decode d.data with
      | error e =>
        simp only [handle, hc, hkind, hidle, hdecode, if_true] at hx
        exact .inr hx
      | ok credentials =>
        rw [handle_review hc hkind hidle hdecode] at hx
        obtain ⟨c', hpeer, hset, hheld⟩ := h.review_holds c credentials
        rw [hset] at hx
        rcases hx.of_replaced hc hpeer (hheld x) with ⟨rfl, ⟨id, hnote⟩ | ⟨id, hverdict⟩⟩ | hold
        · exact .inl (.checking hnote)
        · rw [Roster.peer_of_find? hc] at hverdict
          exact .inl (.answer hc hkind hidle hdecode hverdict)
        · exact .inr hold
    · rcases handle_other hc hreview with hroster | hroster
      · exact .inr (hroster ▸ hx)
      · rw [hroster] at hx
        exact .inr ((hx.of_replaced hc (by simp) fun hx => .inr hx.of_setPhase).resolve_left (·.2))

end

section
variable [Transport σ] [Doorman δ] {h : Host δ} {m : HostMove σ} {peer : Address} {x : Message}

/-- What is held for a peer was held before, or the move queued it. -/
theorem act_holds (hx : (h.act m).roster.Holds peer x) :
    h.Queued m peer x ∨ h.roster.Holds peer x := by
  cases m with
  | settle =>
    refine hx.of_forall₂ (forall₂_map (fun c => ⟨c.quiet_settle.peer_eq, fun x hx => ?_⟩) _)
    exact .inr hx.of_settle
  | hear d now => exact .inr (holds_of_hear hx)
  | fail text => exact .inr hx
  | handle other d => exact holds_of_handle hx
  | expire now =>
    rw [act, (h.expire_spec now).1] at hx
    exact .inr hx.of_expire
  | transmit net now =>
    refine hx.of_forall₂
      (forall₂_transmitAll (fun c net => ⟨(c.quiet_transmit net now).peer_eq, fun x hx => ?_⟩) _
        net)
    exact .inr hx.of_transmit
  | collect => exact hx.of_forall₂ (forall₂_map (fun c => ⟨rfl, fun x hx => .inr hx⟩) _)
  | send other kind critical payload =>
    rw [act] at hx
    rcases h.send_cases other kind critical payload with hsend | ⟨c, hc, hsend⟩
    · rw [hsend] at hx
      exact .inr hx
    · rw [hsend] at hx
      rcases Roster.Holds.of_replaced hx hc rfl Channel.Holds.of_enqueue with ⟨rfl, hnew⟩ | hold
      · exact .inl (.sent hnew)
      · exact .inr hold
  | broadcast kind critical payload =>
    refine hx.of_forall₂ ?_
    simp only [act, broadcast, List.map_map]
    refine forall₂_map (fun c => ?_) _
    simp only [Function.comp]
    split
    · refine ⟨rfl, fun x hx => ?_⟩
      rcases hx.of_enqueue with hnew | hold
      · exact .inl (.spread hnew)
      · exact .inr hold
    · exact ⟨rfl, fun x hx => .inr hx⟩
  | takeEvents => exact .inr hx
  | stop => exact .inr hx

end

end Host

end Courier
