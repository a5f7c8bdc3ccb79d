import Courier.Proofs.Arrivals.Replay
import Courier.Proofs.Guest.Recount

/-!
# Noise on the way to a guest

Two runs of a guest are compared that differ in what else comes in: datagrams
from elsewhere, datagrams that hold no packet, and copies of datagrams that were
accepted on the same channel before. Apart from the two counters for such
datagrams the runs are the same (`Disturbed.unseen`).
-/

namespace Courier

-- ---------------------------------------------------------------------------
-- Ticks of a guest
-- ---------------------------------------------------------------------------

namespace Channel

section
variable (c : Channel) (now : Time)

theorem arrivals_receive (p : Packet) (size : Nat) :
    (c.receive p size now).2.arrivals = (c.arrivals.record p.header.sequence).2 := by
  cases haccepted : (c.arrivals.record p.header.sequence).1.accepted with
  | true =>
    obtain ⟨-, -, harrivals, -⟩ := c.receive_accepted p size now haccepted
    exact harrivals
  | false =>
    obtain ⟨-, -, harrivals, -⟩ := c.receive_refused p size now haccepted
    rw [harrivals, c.arrivals.record_refused _ haccepted]

theorem arrivals_enqueue (kind : Kind) (critical : Bool) (payload : Bytes) :
    (c.enqueue kind critical payload).2.arrivals = c.arrivals := by
  simp only [enqueue]

theorem arrivals_dispatched : (c.dispatched now).arrivals = c.arrivals := by
  unfold dispatched
  split
  · rfl
  · rfl

end

end Channel

namespace Guest

def depart (g : Guest) (now : Time) : Guest :=
  { ({ g with channel := g.channel.dispatched now } : Guest).collect with ticks := g.ticks + 1 }

section
variable {σ : Type} [Transport σ] {g g' : Guest} {now : Time}

theorem transmit_inner (g : Guest) (t : Tap σ) (now : Time) :
    g.transmit t.inner now = ((g.transmit t now).1, (g.transmit t now).2.inner) := by
  simp only [transmit, g.channel.transmit_inner t now]

theorem tick_tap (g : Guest) (t : Tap σ) (now : Time) :
    g.tick t.inner now = ((g.tick t now).1, (g.tick t now).2.inner) := by
  have hreceived : Transport.receive t.inner Packet.maxSize =
      ((Transport.receive t Packet.maxSize).1, (Transport.receive t Packet.maxSize).2.inner) := rfl
  simp only [tick, hreceived, transmit_inner]

theorem absorb_eq {inflow : Inflow} (hnone : inflow.failure = none) : g.absorb inflow now =
    (Guest.hearAll now g.settled inflow.datagrams).2.finish
      (Guest.hearAll now g.settled inflow.datagrams).1 now := by
  simp only [absorb, hnone, Option.elim_none]
  rfl

/-- A tick without failures; only what comes in depends on the transport. -/
theorem tick_eq {good : σ → Prop} (hgood : Transport.Faultless good) {net : σ} (hnet : good net)
      (g : Guest) (now : Time) :
      (g.tick ({ inner := net } : Tap σ) now).1 =
        (g.absorb (Transport.receive net Packet.maxSize).1 now).depart now ∧
      (g.tick ({ inner := net } : Tap σ) now).2.sent =
        (g.absorb (Transport.receive net Packet.maxSize).1 now).channel.parcels now := by
  let tap : Tap σ := { inner := (Transport.receive net Packet.maxSize).2 }
  obtain ⟨hfailure, hchannel, hsent, -⟩ := Channel.transmit_tap (t := tap) hgood
    (g.absorb (Transport.receive net Packet.maxSize).1 now).channel
    (hgood.receive net hnet Packet.maxSize).2 now
  have hinflow : (Transport.receive ({ inner := net } : Tap σ) Packet.maxSize) =
      ((Transport.receive net Packet.maxSize).1, tap) := rfl
  simp only [tick, transmit, hinflow, hfailure, hchannel, hsent, Option.elim_none]
  exact ⟨rfl, rfl⟩

theorem Agree.depart (hg : g.Agree g') (now : Time) :
    (g.depart now).Agree (g'.depart now) ∧ g'.channel.parcels now = g.channel.parcels now := by
  obtain ⟨duplicate, malformed, rfl⟩ := hg
  refine ⟨⟨duplicate, malformed, ?_⟩, rfl⟩
  have hchannel : (g.recount duplicate malformed).channel = g.channel.recount duplicate malformed :=
    rfl
  simp only [Guest.depart, hchannel, Channel.dispatched_recount]
  rfl

theorem arrivals_depart (g : Guest) (now : Time) :
    (g.depart now).channel.arrivals = g.channel.arrivals :=
  g.channel.arrivals_dispatched now

theorem arrivals_handle (g : Guest) (x : Delivery) :
    (g.handle x).channel.arrivals = g.channel.arrivals ∧
    (g.handle x).channel.lastReceived = g.channel.lastReceived ∧
    (g.handle x).config = g.config := by
  have harrivals := g.channel.arrivals_setPhase
  have hlast := g.channel.lastReceived_setPhase
  unfold handle
  split
  · split
    · exact ⟨rfl, rfl, rfl⟩
    · split
      · split
        · exact ⟨harrivals .admitted, hlast .admitted, rfl⟩
        · exact ⟨harrivals .idle, hlast .idle, rfl⟩
      · exact ⟨rfl, rfl, rfl⟩
  · exact ⟨rfl, rfl, rfl⟩

theorem arrivals_handleAll (g : Guest) (xs : List Delivery) :
    (xs.foldl handle g).channel.arrivals = g.channel.arrivals ∧
      (xs.foldl handle g).channel.lastReceived = g.channel.lastReceived ∧
      (xs.foldl handle g).config = g.config := by
  induction xs generalizing g with
  | nil => exact ⟨rfl, rfl, rfl⟩
  | cons x rest ih =>
    obtain ⟨harrivals, hlast, hconfig⟩ := g.arrivals_handle x
    obtain ⟨harrivals', hlast', hconfig'⟩ := ih (g.handle x)
    exact ⟨harrivals'.trans harrivals, hlast'.trans hlast, hconfig'.trans hconfig⟩

theorem arrivals_proceed (g : Guest) : g.proceed.channel.arrivals = g.channel.arrivals := by
  have hqueued := g.channel.arrivals_enqueue .credentials true g.credentials.encode
  revert hqueued
  rw [proceed]
  generalize g.channel.enqueue .credentials true g.credentials.encode = queued
  obtain ⟨result, channel⟩ := queued
  intro hqueued
  split
  · split
    · rfl
    · cases result with
      | ok id => exact (channel.arrivals_setPhase .asking).trans hqueued
      | error e => exact hqueued
  · exact Channel.arrivals_setPhase _ .playing
  · rfl
  · rfl

theorem arrivals_finish (g : Guest) (xs : List Delivery) (now : Time) :
    (g.finish xs now).channel.arrivals =
    if g.channel.isTimedOut now g.config.timeout then {} else g.channel.arrivals := by
  obtain ⟨harrivals, hlast, hconfig⟩ := g.arrivals_handleAll xs
  rw [finish, arrivals_proceed, expire, Channel.isTimedOut, hlast, hconfig, ← Channel.isTimedOut]
  split
  · rfl
  · exact harrivals

end

-- ---------------------------------------------------------------------------
-- A guest and its history
-- ---------------------------------------------------------------------------

/-- A guest with the datagrams that it accepted on its channel, with how far the
newest of them is ahead of the first, and with the events that were taken from
it and the datagrams that it handed to its transport. -/
structure Diary where
  guest : Guest
  accepted : List Datagram := []
  travelled : Nat := 0
  taken : List GuestEvent := []
  sent : List (Address × Bytes) := []

structure Round (σ : Type) where
  uses : List GuestUse
  net : σ
  now : Time

def Round.datagrams {σ : Type} [Transport σ] (r : Round σ) : List Datagram :=
  (Transport.receive r.net Packet.maxSize).1.datagrams

namespace Diary

section
variable {σ : Type}

def use (t : Diary) : GuestUse → Diary
  | .takeEvents =>
    { t with guest := t.guest.takeEvents.2, taken := t.taken ++ t.guest.takeEvents.1 }
  | u => { t with guest := t.guest.use u }

def settled (t : Diary) : Diary := { t with guest := t.guest.settled }

def hear (t : Diary) (now : Time) (d : Datagram) : Diary :=
  { t with
    guest := (t.guest.hear d now).2
    accepted := if t.guest.accepts d then t.accepted ++ [d] else t.accepted
    travelled :=
      t.travelled + t.guest.channel.arrivals.stride (t.guest.hear d now).2.channel.arrivals }

def hearAll (t : Diary) (now : Time) (ds : List Datagram) : Diary := ds.foldl (·.hear now) t

def tick [Transport σ] (t : Diary) (net : σ) (now : Time) : Diary :=
  let heard := t.settled.hearAll now (Transport.receive net Packet.maxSize).1.datagrams
  let restarts := heard.guest.channel.isTimedOut now heard.guest.config.timeout
  let (guest, tap) := t.guest.tick ({ inner := net } : Tap σ) now
  { guest
    accepted := if restarts then [] else heard.accepted
    travelled := if restarts then 0 else heard.travelled
    taken := t.taken
    sent := t.sent ++ tap.sent }

def round [Transport σ] (t : Diary) (r : Round σ) : Diary := (r.uses.foldl use t).tick r.net r.now

/-- The datagram comes from elsewhere, holds no packet, or is a copy of one that
was accepted on the channel. -/
def IsNoise (t : Diary) (d : Datagram) : Prop :=
  d.source ≠ t.guest.server ∨ (∃ e, Packet.decode d.bytes = .error e) ∨ d ∈ t.accepted

/-- The second list is the first one with noise in between. -/
inductive Noisy (now : Time) : Diary → List Datagram → List Datagram → Prop
  | nil {t : Diary} : Noisy now t [] []
  | heard {t : Diary} {d : Datagram} {ds ds' : List Datagram} : Noisy now (t.hear now d) ds ds' →
    Noisy now t (d :: ds) (d :: ds')
  | noise {t : Diary} {d : Datagram} {ds ds' : List Datagram} : t.IsNoise d → Noisy now t ds ds' →
    Noisy now t ds (d :: ds')

end

-- ---------------------------------------------------------------------------
-- What was accepted is remembered
-- ---------------------------------------------------------------------------

/-- The record of the channel stands for the datagrams that were accepted. -/
def Covered (t : Diary) : Prop :=
  ∃ reference taken, t.guest.channel.arrivals.Covers t.accepted t.travelled reference taken

section
variable {σ : Type} {t t' : Diary} {d : Datagram} {now : Time}

theorem Covered.of_eq (ht : t.Covered)
    (harrivals : t'.guest.channel.arrivals = t.guest.channel.arrivals)
    (haccepted : t'.accepted = t.accepted) (htravelled : t'.travelled = t.travelled) :
    t'.Covered := by
  rw [Covered, harrivals, haccepted, htravelled]
  exact ht

theorem Covered.use (ht : t.Covered) (u : GuestUse) : (t.use u).Covered := by
  cases u with
  | send kind critical payload => exact ht.of_eq rfl rfl rfl
  | takeEvents => exact ht.of_eq rfl rfl rfl
  | stop => exact ht.of_eq rfl rfl rfl

theorem Covered.useAll (ht : t.Covered) (uses : List GuestUse) :
    (uses.foldl Diary.use t).Covered := by
  induction uses generalizing t with
  | nil => exact ht
  | cons u rest ih => exact ih (ht.use u)

theorem Covered.settled (ht : t.Covered) : t.settled.Covered :=
  ht.of_eq t.guest.channel.settle_spec.2.1 rfl rfl

theorem Covered.hear (ht : t.Covered) (d : Datagram) (now : Time) : (t.hear now d).Covered := by
  obtain ⟨reference, taken, hcovers⟩ := ht
  cases haccepts : t.guest.accepts d with
  | false =>
    obtain ⟨-, _, _, hsame⟩ := hear_ignored haccepts now
    refine Covered.of_eq ⟨reference, taken, hcovers⟩ ?_ ?_ ?_
    · simp only [Diary.hear, hsame]
      rfl
    · simp [Diary.hear, haccepts]
    · have harrivals : (t.guest.hear d now).2.channel.arrivals = t.guest.channel.arrivals := by
        rw [hsame]; rfl
      simp [Diary.hear, harrivals]
  | true =>
    have haccepts' := haccepts
    simp only [accepts, Bool.and_eq_true, beq_iff_eq] at haccepts'
    obtain ⟨hsource, haccepted⟩ := haccepts'
    cases hp : Packet.decode d.bytes with
    | error e => simp [hp] at haccepted
    | ok p =>
      rw [hp] at haccepted
      have harrivals : (t.guest.hear d now).2.channel.arrivals =
          (t.guest.channel.arrivals.record p.header.sequence).2 := by
        simp only [Guest.hear, hsource, if_true, Channel.accept, hp, Except.map]
        exact t.guest.channel.arrivals_receive now p d.bytes.length
      have hgrown := hcovers.record hp haccepted
      rw [← harrivals] at hgrown
      simpa only [Covered, Diary.hear, haccepts, if_true] using hgrown

theorem Covered.hearAll (ht : t.Covered) (now : Time) (ds : List Datagram) :
    (t.hearAll now ds).Covered := by
  induction ds generalizing t with
  | nil => exact ht
  | cons d rest ih => exact ih (ht.hear d now)

theorem guest_hearAll (t : Diary) (now : Time) (ds : List Datagram) :
    (t.hearAll now ds).guest = (Guest.hearAll now t.guest ds).2 := by
  induction ds generalizing t with
  | nil => rfl
  | cons d rest ih => exact ih (t.hear now d)

theorem travelled_le_hearAll (t : Diary) (now : Time) (ds : List Datagram) :
    t.travelled ≤ (t.hearAll now ds).travelled := by
  induction ds generalizing t with
  | nil => exact Nat.le_refl _
  | cons d rest ih => exact (Nat.le_add_right _ _).trans (ih (t.hear now d))

theorem Covered.tick [Transport σ] {good : σ → Prop} (ht : t.Covered)
    (hgood : Transport.Faultless good) {net : σ} (hnet : good net) (now : Time) :
    (t.tick net now).Covered := by
  let heard := t.settled.hearAll now (Transport.receive net Packet.maxSize).1.datagrams
  have hheard : heard.Covered := ht.settled.hearAll now _
  have harrivals : (t.tick net now).guest.channel.arrivals =
      if heard.guest.channel.isTimedOut now heard.guest.config.timeout then
        {}
      else heard.guest.channel.arrivals := by
    rw [show (t.tick net now).guest = _ from (t.guest.tick_eq hgood hnet now).1,
      arrivals_depart, absorb_eq (hgood.receive net hnet Packet.maxSize).1, arrivals_finish,
      guest_hearAll]
    rfl
  cases hrestarts : heard.guest.channel.isTimedOut now heard.guest.config.timeout with
  | true =>
    have haccepted : (t.tick net now).accepted = [] := if_pos hrestarts
    have htravelled : (t.tick net now).travelled = 0 := if_pos hrestarts
    rw [Covered, harrivals, hrestarts, haccepted, htravelled]
    exact ⟨_, _, Arrivals.covers_empty⟩
  | false =>
    rw [hrestarts] at harrivals
    have hgoes : ¬heard.guest.channel.isTimedOut now heard.guest.config.timeout = true :=
      ne_true_of_eq_false hrestarts
    exact hheard.of_eq harrivals (if_neg hgoes) (if_neg hgoes)

theorem IsNoise.ignored (hd : t.IsNoise d) (ht : t.Covered) (htravelled : t.travelled < 2 ^ 30) :
    t.guest.accepts d = false := by
  rcases hd with hsource | ⟨e, hdecode⟩ | hcopy
  · simp [accepts, hsource]
  · simp [accepts, hdecode]
  · obtain ⟨reference, taken, hcovers⟩ := ht
    cases hp : Packet.decode d.bytes with
    | error e => simp [accepts, hp]
    | ok p => simp [accepts, hp, hcovers.refuses htravelled hcopy hp]

/-- A guest takes in the same with noise as without it. -/
theorem Noisy.hearAll {ds ds' : List Datagram} (h : Noisy now t ds ds') {g' : Guest}
    (hg : t.guest.Agree g') (ht : t.Covered) (htravelled : (t.hearAll now ds).travelled < 2 ^ 30) :
    (Guest.hearAll now g' ds').1 = (Guest.hearAll now t.guest ds).1 ∧
      (Guest.hearAll now t.guest ds).2.Agree (Guest.hearAll now g' ds').2 := by
  induction h generalizing g' with
  | nil => exact ⟨rfl, hg⟩
  | @heard t d ds ds' _ ih =>
    obtain ⟨hfirst, hheard⟩ := hg.hear d now
    obtain ⟨hothers, hagree⟩ := ih hheard (ht.hear d now) htravelled
    refine ⟨?_, hagree⟩
    simp only [Guest.hearAll, hfirst, hothers]
    rfl
  | @noise t d ds ds' hd _ ih =>
    have hbound := (t.travelled_le_hearAll now ds).trans_lt htravelled
    obtain ⟨hnone, hignored⟩ := hg.ignore (hd.ignored ht hbound) now
    obtain ⟨hothers, hagree⟩ := ih hignored ht htravelled
    refine ⟨?_, hagree⟩
    simp only [Guest.hearAll, hnone, hothers, List.nil_append]

end

-- ---------------------------------------------------------------------------
-- Two runs
-- ---------------------------------------------------------------------------

structure Agree (t t' : Diary) : Prop where
  guests : t.guest.Agree t'.guest
  taken_eq : t'.taken = t.taken
  sent_eq : t'.sent = t.sent

section
variable {σ : Type} [Transport σ] {good : σ → Prop} {t t' : Diary} {now : Time}

theorem Agree.use (ht : t.Agree t') (u : GuestUse) : (t.use u).Agree (t'.use u) := by
  have hguests := ht.guests.use u
  cases u with
  | send kind critical payload => exact ⟨hguests, ht.taken_eq, ht.sent_eq⟩
  | takeEvents =>
    obtain ⟨_, _, hsame⟩ := ht.guests
    refine ⟨hguests, ?_, ht.sent_eq⟩
    simp only [Diary.use, ht.taken_eq, hsame]
    rfl
  | stop => exact ⟨hguests, ht.taken_eq, ht.sent_eq⟩

theorem Agree.useAll (ht : t.Agree t') (uses : List GuestUse) :
    (uses.foldl Diary.use t).Agree (uses.foldl Diary.use t') := by
  induction uses generalizing t t' with
  | nil => exact ht
  | cons u rest ih => exact ih (ht.use u)

theorem Agree.tick (ht : t.Agree t') (hcovered : t.Covered) (hgood : Transport.Faultless good)
    {net net' : σ} (hnet : good net) (hnet' : good net')
    (hnoisy : Noisy now t.settled (Transport.receive net Packet.maxSize).1.datagrams
      (Transport.receive net' Packet.maxSize).1.datagrams)
    (htravelled :
      (t.settled.hearAll now (Transport.receive net Packet.maxSize).1.datagrams).travelled <
        2 ^ 30) :
    (t.tick net now).Agree (t'.tick net' now) := by
  obtain ⟨hguest, hsent⟩ := t.guest.tick_eq hgood hnet now
  obtain ⟨hguest', hsent'⟩ := t'.guest.tick_eq hgood hnet' now
  obtain ⟨hdeliveries, hheard⟩ := hnoisy.hearAll ht.guests.settled hcovered.settled htravelled
  have habsorbed : (t.guest.absorb (Transport.receive net Packet.maxSize).1 now).Agree
      (t'.guest.absorb (Transport.receive net' Packet.maxSize).1 now) := by
    rw [absorb_eq (hgood.receive net hnet Packet.maxSize).1,
      absorb_eq (hgood.receive net' hnet' Packet.maxSize).1, hdeliveries]
    exact hheard.finish _ now
  obtain ⟨hdeparted, hparcels⟩ := habsorbed.depart now
  refine ⟨?_, ht.taken_eq, ?_⟩
  · simp only [Diary.tick, hguest, hguest']
    exact hdeparted
  · simp only [Diary.tick, hsent, hsent', ht.sent_eq, hparcels]

end

end Diary

/-- Two runs of one guest, the second of them with noise. In each round the
newest packet is less than a quarter of all sequences ahead of the first one. -/
inductive Disturbed {σ : Type} [Transport σ] (good : σ → Prop) : Diary → Diary → Prop
  | start {server : Address} {config : GuestConfig} {now : Time} {g : Guest}
      (hmake : Guest.make server config now = .ok g) : Disturbed good { guest := g } { guest := g }
  | round {t t' : Diary} {r r' : Round σ} (hruns : Disturbed good t t') (hgood : good r.net)
      (hgood' : good r'.net)
      (hnow : r.now = r'.now) (huses : r.uses = r'.uses)
      (hnoisy : Diary.Noisy r.now (r.uses.foldl Diary.use t).settled r.datagrams r'.datagrams)
      (htravelled : ((r.uses.foldl Diary.use t).settled.hearAll r.now r.datagrams).travelled <
        2 ^ 30) :
    Disturbed good (t.round r) (t'.round r')

section
variable {σ : Type} [Transport σ] {good : σ → Prop} {t t' : Diary}

theorem Disturbed.coupled (hgood : Transport.Faultless good) (hruns : Disturbed good t t') :
    t.Covered ∧ t.Agree t' := by
  induction hruns with
  | @start server config now g hmake =>
    obtain ⟨credentials, rfl⟩ := make_ok hmake
    exact ⟨⟨_, _, Arrivals.covers_empty⟩, agree_self _, rfl, rfl⟩
  | round _ hnet hnet' hnow huses hnoisy htravelled ih =>
    obtain ⟨hcovered, hagree⟩ := ih
    have hcovered := hcovered.useAll
    rw [Diary.round, Diary.round, ← hnow, ← huses]
    exact ⟨(hcovered _).tick hgood hnet _,
      (hagree.useAll _).tick (hcovered _) hgood hnet hnet' hnoisy htravelled⟩

/-- After every tick the guest is the same with noise as without it, down to the
events that wait, its queue, windows, times and all other counters. The same
events were taken from it, and it sent the same datagrams. -/
theorem Disturbed.unseen (hgood : Transport.Faultless good) (hruns : Disturbed good t t') :
    (∃ duplicate malformed, t'.guest = { t.guest with
      channel := { t.guest.channel with
        traffic := { t.guest.channel.traffic with
          packetsDuplicate := duplicate, packetsMalformed := malformed } } }) ∧
      t'.taken = t.taken ∧ t'.sent = t.sent := by
  obtain ⟨-, hguests, htaken, hsent⟩ := hruns.coupled hgood
  exact ⟨hguests, htaken, hsent⟩

end

namespace Disturbed

def home : Address := { ip := .v4 0x7F000001, port := Packet.defaultPort }

def fromHome (sequence : UInt32) (messages : List Message) : Datagram where
  source := home
  bytes := Packet.encode
    { header :=
        { protocol := Packet.protocolId, count := .ofNat messages.length, sequence, ack := 0,
          ackBits := 0 }
      messages } |>.toOption.getD []

def approval : Datagram := fromHome 0 [⟨.verdict, true, 0, 0, Verdict.encode true⟩]

def farAhead : Datagram := fromHome 1000 [⟨.data, false, 1, 0, [7]⟩]

def stranger : Datagram := { farAhead with source := { home with port := 1 } }

def garbage : Datagram := { source := home, bytes := [1, 2, 3] }

def newcomer : Diary where
  guest :=
    { config := {}, credentials := { user := "anonymous", password := "1234" },
      channel := .fresh home 0 }

def listening (now : Time) (datagrams : List Datagram) : Round Script where
  uses := [.takeEvents]
  net := { incoming := datagrams.map (0, ·) }
  now := now

def calm : Diary :=
  ((newcomer.round (listening 0 [])).round (listening 1 [approval])).round (listening 2 [farAhead])

def noisy : Diary :=
  ((newcomer.round (listening 0 [stranger])).round
    (listening 1 [garbage, approval, approval])).round
    (listening 2 [farAhead, approval, farAhead])

theorem unseen_replayed :
    Disturbed (fun _ : Script => True) calm noisy ∧ noisy.guest.events = calm.guest.events ∧
      noisy.taken = calm.taken ∧ noisy.sent = calm.sent ∧ .verdict true ∈ calm.taken ∧
      calm.guest.phase = .playing ∧ calm.guest.channel.traffic.packetsDuplicate = 0 ∧
      noisy.guest.channel.traffic.packetsDuplicate = 3 ∧
      noisy.guest.channel.traffic.packetsMalformed = 1 := by
  have hstart : Disturbed (fun _ : Script => True) newcomer newcomer :=
    .start (rfl : Guest.make home {} 0 = .ok newcomer.guest)
  have hquiet : Disturbed (fun _ : Script => True) (newcomer.round (listening 0 []))
      (newcomer.round (listening 0 [stranger])) :=
    hstart.round trivial trivial rfl rfl (.noise (.inl (by decide +kernel)) .nil)
      (by decide +kernel)
  have happroved : Disturbed (fun _ : Script => True)
      ((newcomer.round (listening 0 [])).round (listening 1 [approval]))
      ((newcomer.round (listening 0 [stranger])).round
        (listening 1 [garbage, approval, approval])) :=
    hquiet.round trivial trivial rfl rfl
      (.noise (.inr (.inl ⟨.tooShort 3, by decide +kernel⟩))
        (.heard (.noise (.inr (.inr (by decide +kernel))) .nil)))
      (by decide +kernel)
  have hruns : Disturbed (fun _ : Script => True) calm noisy :=
    happroved.round trivial trivial rfl rfl
      (.heard
        (.noise (.inr (.inr (by decide +kernel))) (.noise (.inr (.inr (by decide +kernel))) .nil)))
      (by decide +kernel)
  obtain ⟨⟨_, _, hguest⟩, htaken, hsent⟩ := hruns.unseen Script.faultless
  refine ⟨hruns, by rw [hguest], htaken, hsent, ?_⟩
  decide +kernel

end Disturbed

end Guest

end Courier
