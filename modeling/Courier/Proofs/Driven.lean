import Courier.Proofs.Chronicle
import Courier.Proofs.Guest
import Courier.Proofs.Outbox.Queueing
import Courier.Proofs.Phase

/-!
# Channels as they are used

`Driven` lists once what ever happens to the messages a channel sends. The
channel of a chronicle is driven, and so is that of a guest, before and after
each of its ticks and within them. What the operations of a channel keep up
therefore holds of all of these; that their outbox is one that the operations
of the queue can make and that no message in it is too long are examples.
-/

namespace Courier

namespace Channel

/-- The channels that the operations make of a fresh one. Of what else is done
to a channel only that counts that it leaves the outgoing messages alone. -/
inductive Driven : Channel → Prop
  | fresh (peer : Address) (now : Time) : Driven (.fresh peer now)
  | settle {c : Channel} (h : Driven c) : Driven c.settle.2
  | receive {c : Channel} (h : Driven c) (p : Packet) (size : Nat) (now : Time) :
      Driven (c.receive p size now).2
  | enqueue {c : Channel} (h : Driven c) (kind : Kind) (critical : Bool) (payload : Bytes) :
    Driven (c.enqueue kind critical payload).2
  | build {c : Channel} (h : Driven c) (now : Time) : Driven (c.build now).2
  | aside {c c' : Channel} (h : Driven c) (hsame : c'.outgoing = c.outgoing) : Driven c'

section
variable {c : Channel}

theorem Driven.setPhase (h : c.Driven) (phase : Phase) : (c.setPhase phase).Driven :=
  h.aside (c.outgoing_setPhase phase)

theorem Driven.transmit {σ : Type} [Transport σ] (h : c.Driven) (net : σ) (now : Time) :
    (c.transmit net now).2.1.Driven := by
  have hbuilt := h.build now
  simp only [Channel.transmit]
  split
  · exact hbuilt.aside rfl
  · split
    · exact hbuilt.aside rfl
    · exact hbuilt.aside rfl

theorem Driven.accept {bytes : Bytes} {now : Time} {result : List Delivery × Channel} (h : c.Driven)
    (haccept : c.accept bytes now = .ok result) : result.2.Driven := by
  unfold Channel.accept at haccept
  cases hdecode : Packet.decode bytes with
  | error e =>
    rw [hdecode] at haccept
    cases haccept
  | ok p =>
    rw [hdecode] at haccept
    cases haccept
    exact h.receive p bytes.length now

end

end Channel

-- ---------------------------------------------------------------------------
-- The outbox of a driven channel
-- ---------------------------------------------------------------------------

namespace Outbox.Reachable

variable {box : Outbox}

theorem releaseAll (h : box.Reachable) (places : List Place) :
    (box.releaseAll places).2.Reachable := by
  induction places generalizing box with
  | nil => exact h
  | cons i rest ih => exact ih (h.release i)

end Outbox.Reachable

namespace Outgoing

variable {o : Outgoing}

theorem reachable_deliverAll (h : o.outbox.Reachable) (indices : List UInt32) :
    (o.deliverAll indices).2.outbox.Reachable := by
  induction indices generalizing o with
  | nil => exact h
  | cons i rest ih => exact ih (h.releaseAll _)

theorem reachable_settle (h : o.outbox.Reachable) (next acked : UInt32) :
    (o.settle next acked).2.2.outbox.Reachable := by
  simp only [settle]
  split
  · exact h
  · exact h.releaseAll _
  · exact (h.requeue _).releaseAll _

end Outgoing

theorem Channel.Driven.outbox {c : Channel} (h : c.Driven) : c.outbox.Reachable := by
  induction h with
  | fresh peer now => exact .empty
  | @settle c _ ih =>
    rw [Channel.outbox, c.settle_spec.2.2.2.1]
    exact Outgoing.reachable_settle ih _ _
  | @receive c _ p size now ih =>
    cases haccepted : (c.arrivals.record p.header.sequence).1.accepted with
    | false =>
      obtain ⟨-, -, -, -, houtgoing, -⟩ := c.receive_refused p size now haccepted
      rw [Channel.outbox, houtgoing]
      exact ih
    | true =>
      obtain ⟨-, -, -, -, houtgoing, -⟩ := c.receive_accepted p size now haccepted
      rw [Channel.outbox, houtgoing]
      exact Outgoing.reachable_deliverAll ih _
  | enqueue _ kind critical payload ih => exact ih.enqueue kind critical payload _
  | build _ now ih => exact ih.drain _ _ _
  | aside _ hsame ih =>
    rw [Channel.outbox, hsame]
    exact ih

-- ---------------------------------------------------------------------------
-- The messages of a driven channel
-- ---------------------------------------------------------------------------

namespace Channel

def Fits (c : Channel) : Prop := c.outgoing.outbox.Fits

section
variable {c c' : Channel}

theorem Fits.mono (h : c.Fits) (hheld : ∀ m, c'.Holds m → c.Holds m) : c'.Fits :=
  Outbox.Fits.mono h hheld

theorem Driven.fits (h : c.Driven) : c.Fits := by
  induction h with
  | fresh peer now => exact Outbox.fits_empty
  | settle _ ih => exact ih.mono fun m hm => hm.of_settle
  | receive _ p size now ih => exact ih.mono fun m hm => hm.of_receive
  | enqueue _ kind critical payload ih => exact Outbox.Fits.enqueue ih kind critical payload _
  | build _ now ih => exact ih.mono fun m hm => hm.of_build
  | aside _ hsame ih =>
    rw [Fits, hsame]
    exact ih

end

end Channel

-- ---------------------------------------------------------------------------
-- Chronicles and guests
-- ---------------------------------------------------------------------------

theorem Chronicle.Reachable.driven {rule : Chronicle → Action → Prop} {c : Chronicle}
    (h : c.Reachable rule) : c.channel.Driven := by
  induction h with
  | start peer now => exact .fresh peer now
  | @step c a _ _ ih =>
    cases a with
    | settle => exact ih.settle
    | enqueue p =>
      rw [Chronicle.step, channel_enqueue]
      exact ih.enqueue p.kind p.critical p.data
    | build now => exact ih.build now
    | receive r size now =>
      rw [Chronicle.step, channel_receive]
      exact ih.receive r.packet size now
    | takeNotices => exact ih.aside rfl

namespace Guest

inductive Reachable (σ : Type) [Transport σ] : Guest → Prop
  | make {server : Address} {config : GuestConfig} {now : Time} {g : Guest} :
    Guest.make server config now = .ok g → Reachable σ g
  | tick {g : Guest} (net : σ) (now : Time) : Reachable σ g → Reachable σ (g.tick net now).1
  | use {g : Guest} (u : GuestUse) : Reachable σ g → Reachable σ (g.use u)

def Driven (g : Guest) : Prop := g.channel.Driven

section
variable {g : Guest} {now : Time}

theorem driven_make {server : Address} {config : GuestConfig}
    (hmake : Guest.make server config now = .ok g) : g.Driven := by
  obtain ⟨credentials, rfl⟩ := make_ok hmake
  exact .fresh server now

theorem Driven.use (hg : g.Driven) (u : GuestUse) : (g.use u).Driven := by
  cases u with
  | send kind critical payload => exact Channel.Driven.enqueue hg kind critical payload
  | takeEvents => exact hg
  | stop => exact hg

theorem Driven.hear (hg : g.Driven) (d : Datagram) (now : Time) : (g.hear d now).2.Driven := by
  simp only [Guest.hear]
  split
  · split
    next haccept => exact Channel.Driven.accept hg haccept
    · exact Channel.Driven.aside hg rfl
  · exact hg

theorem Driven.hearAll (hg : g.Driven) (now : Time) (ds : List Datagram) :
    (Guest.hearAll now g ds).2.Driven := by
  induction ds generalizing g with
  | nil => exact hg
  | cons d rest ih => exact ih (hg.hear d now)

theorem Driven.handle (hg : g.Driven) (d : Delivery) : (g.handle d).Driven := by
  unfold Guest.handle
  split
  · split
    · exact hg
    · split
      · split
        · exact Channel.Driven.setPhase hg .admitted
        · exact Channel.Driven.setPhase hg .idle
      · exact hg
  · exact hg

theorem Driven.handleAll (hg : g.Driven) (ds : List Delivery) :
    (ds.foldl Guest.handle g).Driven := by
  induction ds generalizing g with
  | nil => exact hg
  | cons d rest ih => exact ih (hg.handle d)

theorem Driven.expire (hg : g.Driven) (now : Time) : (g.expire now).Driven := by
  unfold Guest.expire
  split
  · exact .fresh g.server now
  · exact hg

theorem Driven.proceed (hg : g.Driven) : g.proceed.Driven := by
  have hasked := Channel.Driven.enqueue hg .credentials true g.credentials.encode
  unfold Guest.proceed
  split
  · split
    · exact hg
    · split
      next hqueued =>
        rw [hqueued] at hasked
        exact hasked.setPhase .asking
      next hqueued =>
        rw [hqueued] at hasked
        exact hasked
  · exact Channel.Driven.setPhase hg .playing
  · exact hg
  · exact hg

theorem Driven.absorb (hg : g.Driven) (inflow : Inflow) (now : Time) :
    (g.absorb inflow now).Driven := by
  have hsettled : ({ g with channel := g.channel.settle.2 } : Guest).Driven :=
    Channel.Driven.settle hg
  have hheard := hsettled.hearAll now inflow.datagrams
  unfold Guest.absorb
  refine ((Driven.handleAll ?_ _).expire now).proceed
  cases inflow.failure with
  | none => exact hheard
  | some text => exact hheard

theorem Driven.tick {σ : Type} [Transport σ] (hg : g.Driven) (net : σ) (now : Time) :
    (g.tick net now).1.Driven := by
  have hsent := Channel.Driven.transmit (hg.absorb (Transport.receive net Packet.maxSize).1 now)
    (Transport.receive net Packet.maxSize).2 now
  simp only [Guest.tick, Guest.transmit]
  refine Channel.Driven.aside
    (c := ((g.absorb (Transport.receive net Packet.maxSize).1 now).channel.transmit
    (Transport.receive net Packet.maxSize).2 now).2.1) hsent ?_
  cases ((g.absorb (Transport.receive net Packet.maxSize).1 now).channel.transmit
    (Transport.receive net Packet.maxSize).2 now).1 with
  | none => rfl
  | some text => rfl

theorem Reachable.driven {σ : Type} [Transport σ] (h : g.Reachable σ) : g.Driven := by
  induction h with
  | make hmake => exact driven_make hmake
  | tick net now _ ih => exact ih.tick net now
  | use u _ ih => exact ih.use u

end

end Guest

end Courier
