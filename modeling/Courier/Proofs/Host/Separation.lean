import Courier.Proofs.Daybook.Admission
import Courier.Proofs.Host.Sides
import Courier.Proofs.Transport

/-!
# Peers do not influence each other

Two runs of a host are compared for one peer. Its datagrams and what the owner
does about it are the same in both, in the same order; all others may send
anything, and be sent anything. As long as the peer finds room when it needs a
channel, it is treated the same in both runs (`Twins.agree`): what is done about
others in one run alone cannot be seen, and what is done in both is the same.
-/

namespace Courier

inductive HostUse where
  | send (peer : Address) (kind : Kind) (critical : Bool) (payload : Bytes)
  | broadcast (kind : Kind) (critical : Bool) (payload : Bytes)
  | takeEvents
  | stop
  deriving DecidableEq

def HostUse.concerns (peer : Address) : HostUse → Bool
  | .send other .. => other == peer
  | .broadcast .. => true
  | _ => false

structure Round (σ : Type) where
  uses : List HostUse
  net : σ
  now : Time

/-- A host with the events that were taken from it and the datagrams that it
handed to its transport. -/
structure Transcript (δ : Type) where
  host : Host δ
  taken : List HostEvent := []
  sent : List (Address × Bytes) := []

namespace Transcript

variable {σ δ : Type}

def events (t : Transcript δ) : List HostEvent := t.taken ++ t.host.events

def use (t : Transcript δ) : HostUse → Transcript δ
  | .send peer kind critical payload =>
    { t with host := (t.host.send peer kind critical payload).2 }
  | .broadcast kind critical payload =>
    { t with host := (t.host.broadcast kind critical payload).2 }
  | .takeEvents => { t with host := t.host.takeEvents.2, taken := t.taken ++ t.host.takeEvents.1 }
  | .stop => { t with host := t.host.stop }

def tick [Transport σ] [Doorman δ] (t : Transcript δ) (net : σ) (now : Time) : Transcript δ :=
  let (host, tap) := t.host.tick ({ inner := net } : Tap σ) now
  { t with host, sent := t.sent ++ tap.sent }

def round [Transport σ] [Doorman δ] (t : Transcript δ) (r : Round σ) : Transcript δ :=
  (r.uses.foldl use t).tick r.net r.now

end Transcript

namespace Host

variable {δ : Type}

/-- Whenever a packet of the peer needs a channel, there is room for one. -/
def Roomy (peer : Address) (now : Time) : Host δ → List Datagram → Prop
  | _, [] => True
  | h, d :: rest =>
    (d.source = peer → (Packet.decode d.bytes).isOk = true → h.HasRoomFor peer) ∧
      Roomy peer now (h.hear d now).2 rest

instance decidableRoomy (peer : Address) (now : Time) : (h : Host δ) → (ds : List Datagram) →
    Decidable (h.Roomy peer now ds)
  | _, [] => inferInstanceAs (Decidable True)
  | h, d :: rest =>
    have := decidableRoomy peer now (h.hear d now).2 rest
    inferInstanceAs (Decidable ((d.source = peer → _ → _) ∧ _))

end Host

namespace Round

variable {σ δ : Type} [Transport σ] [Doorman δ]

def datagrams (r : Round σ) : List Datagram := (Transport.receive r.net Packet.maxSize).1.datagrams

def Roomy (peer : Address) (t : Transcript δ) (r : Round σ) : Prop :=
  (r.uses.foldl Transcript.use t).host.settled.Roomy peer r.now r.datagrams

instance (peer : Address) (t : Transcript δ) (r : Round σ) : Decidable (r.Roomy peer t) :=
  inferInstanceAs (Decidable (Host.Roomy ..))

end Round

/-- Two runs of one host that are the same for the peer. -/
inductive Twins {σ δ : Type} [Transport σ] [Doorman δ] (good : σ → Prop)
    (answer : Address → Credentials → Bool) (peer : Address) : Transcript δ → Transcript δ → Prop
  | start (config : HostConfig) {doorman : δ} (hdoorman : Doorman.Steady answer doorman) :
    Twins good answer peer { host := .make config doorman } { host := .make config doorman }
  | round {t t' : Transcript δ} {r r' : Round σ} (htwins : Twins good answer peer t t')
      (hgood : good r.net) (hgood' : good r'.net) (hnow : r.now = r'.now)
      (huses : r.uses.filter (·.concerns peer) = r'.uses.filter (·.concerns peer))
      (hdatagrams : r.datagrams.filter (·.source == peer) = r'.datagrams.filter (·.source == peer))
      (hroom : r.Roomy peer t) (hroom' : r'.Roomy peer t') :
    Twins good answer peer (t.round r) (t'.round r')

section
variable {α : Type} {p : α → Bool}

inductive Alike (p : α → Bool) : List α → List α → Prop
  | nil : Alike p [] []
  | left {x : α} {xs ys : List α} : p x = false → Alike p xs ys → Alike p (x :: xs) ys
  | right {y : α} {xs ys : List α} : p y = false → Alike p xs ys → Alike p xs (y :: ys)
  | both {x : α} {xs ys : List α} : p x = true → Alike p xs ys → Alike p (x :: xs) (x :: ys)

theorem alike_of_filter_eq {xs ys : List α} (h : xs.filter p = ys.filter p) : Alike p xs ys := by
  induction xs generalizing ys with
  | nil =>
    induction ys with
    | nil => exact .nil
    | cons y rest ih =>
      cases hy : p y with
      | false => exact .right hy (ih (by simpa [hy] using h))
      | true => simp [hy] at h
  | cons x rest ih =>
    cases hx : p x with
    | false => exact .left hx (ih (by simpa [hx] using h))
    | true =>
      induction ys with
      | nil => simp [hx] at h
      | cons y others ih' =>
        cases hy : p y with
        | false => exact .right hy (ih' (by simpa [hx, hy] using h))
        | true =>
          simp only [List.filter_cons, hx, hy, if_true, List.cons.injEq] at h
          obtain ⟨rfl, hrest⟩ := h
          exact .both hx (ih hrest)

end

namespace Host

section
variable {δ : Type} {peer : Address} {past past' : List HostEvent} {h h' : Host δ} {now : Time}

/-- Datagrams of others are heard unseen, those of the peer complete the same payloads. -/
theorem Agree.hearAll {ds ds' : List Datagram} (hds : Alike (·.source == peer) ds ds')
    (hh : Agree peer past past' h h') (hroom : h.Roomy peer now ds)
    (hroom' : h'.Roomy peer now ds') :
    (h.hearAll now ds).1.filter (·.1 == peer) = (h'.hearAll now ds').1.filter (·.1 == peer) ∧
      Agree peer past past' (h.hearAll now ds).2 (h'.hearAll now ds').2 := by
  have hothers {d : Datagram} (hne : (d.source == peer) = false) (deliveries : List Delivery) :
      (deliveries.map (d.source, ·)).filter (·.1 == peer) = [] :=
    List.filter_eq_nil_iff.mpr fun x hx => by
      obtain ⟨_, -, rfl⟩ := List.mem_map.mp hx
      simpa using hne
  induction hds generalizing h h' with
  | nil => exact ⟨rfl, hh⟩
  | left hne _ ih =>
    simp only [Host.hearAll, List.filter_append, hothers hne, List.nil_append]
    exact ih (hh.left (unseen_hear (by simpa using hne))) hroom.2 hroom'
  | right hne _ ih =>
    simp only [Host.hearAll, List.filter_append, hothers hne, List.nil_append]
    exact ih (hh.right (unseen_hear (by simpa using hne))) hroom hroom'.2
  | both hsource _ ih =>
    have hsource := beq_iff_eq.mp hsource
    obtain ⟨hfirst, hh⟩ := hh.hear hsource (hroom.1 hsource) (hroom'.1 hsource)
    obtain ⟨hrest, hh⟩ := ih hh hroom.2 hroom'.2
    simp only [Host.hearAll, List.filter_append, hfirst, hrest]
    exact ⟨trivial, hh⟩

variable [Doorman δ] {answer : Address → Credentials → Bool}

theorem Proper.hearAll (hp : h.Proper answer) (ds : List Datagram) :
    (h.hearAll now ds).2.Proper answer := by
  induction ds generalizing h with
  | nil => exact hp
  | cons d rest ih => exact ih (hp.hear d now)

/-- The deliveries of others are handled unseen, those of the peer in the same way. -/
theorem Agree.handleAll {xs xs' : List (Address × Delivery)} (hxs : Alike (·.1 == peer) xs xs')
    (hh : Agree peer past past' h h') (hp : h.Proper answer) (hp' : h'.Proper answer) :
    Agree peer past past' (xs.foldl (fun h x => h.handle x.1 x.2) h)
      (xs'.foldl (fun h x => h.handle x.1 x.2) h') := by
  induction hxs generalizing h h' with
  | nil => exact hh
  | left hne _ ih => exact ih (hh.left (unseen_handle (by simpa using hne) _)) (hp.handle _ _) hp'
  | right hne _ ih => exact ih (hh.right (unseen_handle (by simpa using hne) _)) hp (hp'.handle _ _)
  | @both x _ _ hpeer _ ih =>
    obtain ⟨other, d⟩ := x
    obtain rfl : other = peer := beq_iff_eq.mp hpeer
    exact ih (hh.handle hp.steady hp'.steady d) (hp.handle _ _) (hp'.handle _ _)

theorem Proper.handleAll (hp : h.Proper answer) (xs : List (Address × Delivery)) :
    (xs.foldl (fun h x => h.handle x.1 x.2) h).Proper answer := by
  induction xs generalizing h with
  | nil => exact hp
  | cons x rest ih => exact ih (hp.handle x.1 x.2)

theorem Proper.absorb (hp : h.Proper answer) {inflow : Inflow} (hnone : inflow.failure = none) :
    (h.absorb inflow now).Proper answer := by
  simp only [Host.absorb, hnone, Option.elim_none]
  exact (((hp.map fun c => c.quiet_settle.peer_eq).hearAll _).handleAll _).expire now

theorem Agree.absorb {inflow inflow' : Inflow} (hh : Agree peer past past' h h')
    (hp : h.Proper answer) (hp' : h'.Proper answer) (hnone : inflow.failure = none)
    (hnone' : inflow'.failure = none)
    (hsame : inflow.datagrams.filter (·.source == peer) =
      inflow'.datagrams.filter (·.source == peer))
        (hroom : h.settled.Roomy peer now inflow.datagrams)
        (hroom' : h'.settled.Roomy peer now inflow'.datagrams) :
    Agree peer past past' (h.absorb inflow now) (h'.absorb inflow' now) := by
  have hsettled : Agree peer past past' h.settled h'.settled :=
    hh.map fun c => c.quiet_settle.peer_eq
  have hp : h.settled.Proper answer := hp.map fun c => c.quiet_settle.peer_eq
  have hp' : h'.settled.Proper answer := hp'.map fun c => c.quiet_settle.peer_eq
  obtain ⟨hdeliveries, hheard⟩ := hsettled.hearAll (alike_of_filter_eq hsame) hroom hroom'
  have hhandled := hheard.handleAll (alike_of_filter_eq hdeliveries) (hp.hearAll _) (hp'.hearAll _)
  simp only [Host.absorb, hnone, hnone', Option.elim_none]
  exact hhandled.expire ((hp.hearAll _).handleAll _).distinct
    ((hp'.hearAll _).handleAll _).distinct now

end

end Host

namespace Transcript

section
variable {σ δ : Type} [Transport σ] [Doorman δ] {good : σ → Prop}
  {answer : Address → Credentials → Bool} {peer : Address} {t t' : Transcript δ} {net net' : σ}
  {now : Time}

structure Agree (answer : Address → Credentials → Bool) (peer : Address)
    (t t' : Transcript δ) : Prop where
  hosts : Host.Agree peer t.taken t'.taken t.host t'.host
  sent_eq : t.sent.filter (·.1 == peer) = t'.sent.filter (·.1 == peer)
  proper : t.host.Proper answer
  proper' : t'.host.Proper answer

theorem Agree.symm (ht : Agree answer peer t t') : Agree answer peer t' t :=
  ⟨ht.hosts.symm, ht.sent_eq.symm, ht.proper', ht.proper⟩

theorem Agree.use_left (ht : Agree answer peer t t') {u : HostUse} (hu : u.concerns peer = false) :
    Agree answer peer (t.use u) t' := by
  cases u with
  | send other kind critical payload =>
    have hne : other ≠ peer := by simpa [HostUse.concerns] using hu
    exact ⟨ht.hosts.left (Host.unseen_send hne kind critical payload), ht.sent_eq,
      ht.proper.send other kind critical payload, ht.proper'⟩
  | broadcast kind critical payload => cases hu
  | takeEvents =>
    refine ⟨⟨ht.hosts.channel_eq, ?_, ht.hosts.timeout_eq⟩, ht.sent_eq,
      ⟨ht.proper.distinct, ht.proper.steady⟩, ht.proper'⟩
    simpa [use, Host.takeEvents] using ht.hosts.about_eq
  | stop =>
    exact ⟨⟨ht.hosts.channel_eq, ht.hosts.about_eq, ht.hosts.timeout_eq⟩, ht.sent_eq,
      ⟨ht.proper.distinct, ht.proper.steady⟩, ht.proper'⟩

theorem Agree.use (ht : Agree answer peer t t') {u : HostUse} (hu : u.concerns peer = true) :
    Agree answer peer (t.use u) (t'.use u) := by
  cases u with
  | send other kind critical payload =>
    obtain rfl : other = peer := by simpa [HostUse.concerns] using hu
    exact ⟨ht.hosts.send kind critical payload, ht.sent_eq,
      ht.proper.send other kind critical payload, ht.proper'.send other kind critical payload⟩
  | broadcast kind critical payload =>
    exact ⟨ht.hosts.broadcast kind critical payload, ht.sent_eq,
      ht.proper.broadcast kind critical payload, ht.proper'.broadcast kind critical payload⟩
  | takeEvents => cases hu
  | stop => cases hu

theorem Agree.useAll {uses uses' : List HostUse} (huses : Alike (·.concerns peer) uses uses')
    (ht : Agree answer peer t t') :
    Agree answer peer (uses.foldl Transcript.use t) (uses'.foldl Transcript.use t') := by
  induction huses generalizing t t' with
  | nil => exact ht
  | left hu _ ih => exact ih (ht.use_left hu)
  | right hu _ ih => exact ih (ht.symm.use_left hu).symm
  | both hu _ ih => exact ih (ht.use hu)

theorem host_tick (t : Transcript δ) (net : σ) (now : Time) :
    (t.tick net now).host = (t.host.tick ({ inner := net } : Tap σ) now).1 := rfl

theorem sent_tick (t : Transcript δ) (net : σ) (now : Time) :
    (t.tick net now).sent = t.sent ++ (t.host.tick ({ inner := net } : Tap σ) now).2.sent := rfl

theorem Agree.tick (ht : Agree answer peer t t') (hgood : Transport.Faultless good)
    (hnet : good net) (hnet' : good net')
    (hsame : (Transport.receive net Packet.maxSize).1.datagrams.filter (·.source == peer) =
      (Transport.receive net' Packet.maxSize).1.datagrams.filter (·.source == peer))
    (hroom : t.host.settled.Roomy peer now (Transport.receive net Packet.maxSize).1.datagrams)
    (hroom' : t'.host.settled.Roomy peer now (Transport.receive net' Packet.maxSize).1.datagrams) :
    Agree answer peer (t.tick net now) (t'.tick net' now) := by
  obtain ⟨hnone, -⟩ := hgood.receive net hnet Packet.maxSize
  obtain ⟨hnone', -⟩ := hgood.receive net' hnet' Packet.maxSize
  obtain ⟨hhost, hsent⟩ := Host.tick_eq hgood hnet t.host now
  obtain ⟨hhost', hsent'⟩ := Host.tick_eq hgood hnet' t'.host now
  have hp : (t.host.absorb (Transport.receive net Packet.maxSize).1 now).Proper answer :=
    ht.proper.absorb hnone
  have hp' : (t'.host.absorb (Transport.receive net' Packet.maxSize).1 now).Proper answer :=
    ht.proper'.absorb hnone'
  have habsorbed := ht.hosts.absorb ht.proper ht.proper' hnone hnone' hsame hroom hroom'
  generalize t.host.absorb (Transport.receive net Packet.maxSize).1 now = k at *
  generalize t'.host.absorb (Transport.receive net' Packet.maxSize).1 now = k' at *
  have hparcels : ∀ c : Channel, ∀ x ∈ c.parcels now, (x.1 == peer) = (c.peer == peer) := by
    intro c x hx
    obtain ⟨bytes, -, rfl⟩ := List.mem_map.mp hx
    rfl
  have hdispatched := hp.map fun c => c.peer_dispatched now
  have hdispatched' := hp'.map fun c => c.peer_dispatched now
  obtain ⟨hchannel, habout, htimeout⟩ := (habsorbed.map fun c => c.peer_dispatched now).collect
    hdispatched.distinct hdispatched'.distinct
  obtain ⟨hdistinct, hsteady⟩ := hdispatched.map fun c => c.quiet_takeNotices.peer_eq
  obtain ⟨hdistinct', hsteady'⟩ := hdispatched'.map fun c => c.quiet_takeNotices.peer_eq
  refine ⟨?_, ?_, ?_, ?_⟩
  · rw [host_tick, host_tick, hhost, hhost']
    exact ⟨hchannel, habout, htimeout⟩
  · rw [sent_tick, sent_tick, hsent, hsent', List.filter_append, List.filter_append, ht.sent_eq,
      hp.distinct.filter_flatMap hparcels, hp'.distinct.filter_flatMap hparcels]
    exact congrArg (fun c? : Option Channel => _ ++ c?.toList.flatMap _) habsorbed.channel_eq
  · rw [host_tick, hhost]
    exact ⟨hdistinct, hsteady⟩
  · rw [host_tick, hhost']
    exact ⟨hdistinct', hsteady'⟩

end

end Transcript

/-- After every tick the peer has the same channel in both runs, was sent the same
datagrams, and the same events were about it. -/
theorem Twins.agree {σ δ : Type} [Transport σ] [Doorman δ] {good : σ → Prop}
    {answer : Address → Credentials → Bool} {peer : Address} {t t' : Transcript δ}
    (hgood : Transport.Faultless good) (htwins : Twins good answer peer t t') :
    t.host.channel? peer = t'.host.channel? peer ∧
      t.sent.filter (·.1 == peer) = t'.sent.filter (·.1 == peer) ∧
      t.events.filter (·.peer? == some peer) = t'.events.filter (·.peer? == some peer) := by
  have hagree : Transcript.Agree answer peer t t' := by
    induction htwins with
    | start config hdoorman =>
      exact ⟨⟨rfl, rfl, rfl⟩, rfl, ⟨List.nodup_nil, hdoorman⟩, List.nodup_nil, hdoorman⟩
    | round _ hnet hnet' hnow huses hdatagrams hroom hroom' ih =>
      have hused := ih.useAll (alike_of_filter_eq huses)
      rw [Transcript.round, Transcript.round, ← hnow]
      exact hused.tick hgood hnet hnet' hdatagrams hroom (hnow ▸ hroom')
  exact ⟨hagree.hosts.channel_eq, hagree.sent_eq, hagree.hosts.about_eq⟩

namespace Twins

open Daybook (visitor greeting)

def neighbor : Address := { ip := .v4 0x0A000002, port := 4000 }

def calls (sources : List Address) : Script :=
  { incoming := sources.map fun source =>
    (0, { source, bytes := greeting.encode.toOption.getD [] }) }

def opened : Transcript BanList := { host := .make {} { users := ["mallory"] } }

def alone : Transcript BanList := opened.round { uses := [], net := calls [visitor], now := 0 }

def crowded : Transcript BanList :=
  opened.round { uses := [], net := calls [neighbor, visitor, neighbor], now := 0 }

def served : Transcript BanList :=
  alone.round { uses := [.send visitor .data false [2]], net := calls [], now := 100 }

def shared : Transcript BanList :=
  crowded.round
    { uses := [.send neighbor .data true [1], .takeEvents, .send visitor .data false [2]]
      net := calls [neighbor]
      now := 100 }

theorem agree_shared :
    Transport.Faultless (fun _ : Script => True) ∧
      Twins (fun _ : Script => True) opened.host.doorman.answer visitor served shared ∧
      (served.host.channel? visitor = shared.host.channel? visitor ∧
        served.sent.filter (·.1 == visitor) = shared.sent.filter (·.1 == visitor) ∧
        served.events.filter (·.peer? == some visitor) =
          shared.events.filter (·.peer? == some visitor)) ∧
      (served.host.channel? visitor).map (·.phase) = some .playing ∧
      (served.sent.filter (·.1 == visitor)).length = 2 ∧
      shared.host.roster.size = 2 ∧ shared.taken ≠ [] := by
  have hopened : Twins (fun _ : Script => True) opened.host.doorman.answer visitor opened opened :=
    .start {} (BanList.steady _)
  have harrived : Twins (fun _ : Script => True) opened.host.doorman.answer visitor alone crowded :=
    hopened.round trivial trivial rfl rfl (by decide +kernel) (by decide +kernel)
      (by decide +kernel)
  have htwins : Twins (fun _ : Script => True) opened.host.doorman.answer visitor served shared :=
    harrived.round trivial trivial rfl rfl (by decide +kernel) (by decide +kernel)
      (by decide +kernel)
  exact ⟨Script.faultless, htwins, agree Script.faultless htwins, by decide +kernel,
    by decide +kernel, by decide +kernel, by decide +kernel⟩

end Twins

end Courier
