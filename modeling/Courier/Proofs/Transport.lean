import Courier.Host
import Courier.Network.Simulated

/-!
# Transports that keep what is sent

A tap keeps the datagrams that are handed to a transport and changes nothing
else (`Host.tick_tap`). On a transport without failures every channel sends its
next packet, and what becomes of it does not depend on the transport
(`Host.transmit_tap`).
-/

namespace Courier

structure Tap (σ : Type) where
  inner : σ
  sent : List (Address × Bytes) := []

instance {σ : Type} [Transport σ] : Transport (Tap σ) where
  send t peer bytes :=
    let (result, inner) := Transport.send t.inner peer bytes
    (result, { inner, sent := t.sent ++ [(peer, bytes)] })
  receive t buffer :=
    let (inflow, inner) := Transport.receive t.inner buffer
    (inflow, { t with inner })

/-- A transport in such a state does not fail, and remains so. A datagram is
sent as a whole. -/
structure Transport.Faultless {σ : Type} [Transport σ] (good : σ → Prop) : Prop where
  send : ∀ net, good net → ∀ peer bytes,
    (Transport.send net peer bytes).1 = .ok bytes.length ∧ good (Transport.send net peer bytes).2
  receive : ∀ net, good net → ∀ buffer,
    (Transport.receive net buffer).1.failure = none ∧ good (Transport.receive net buffer).2

theorem Script.faultless : Transport.Faultless fun _ : Script => True :=
  ⟨fun _ _ _ _ => ⟨rfl, trivial⟩, fun _ _ _ => ⟨rfl, trivial⟩⟩

theorem Endpoint.faultless : Transport.Faultless fun _ : Endpoint => True :=
  ⟨fun _ _ _ _ => ⟨rfl, trivial⟩, fun _ _ _ => ⟨rfl, trivial⟩⟩

namespace Channel

def parcels (c : Channel) (now : Time) : List (Address × Bytes) :=
  (c.build now).1.encode.toOption.toList.map fun bytes => (c.peer, bytes)

def dispatched (c : Channel) (now : Time) : Channel :=
  match (c.build now).1.encode with
  | .error _ => (c.build now).2.recordSendError
  | .ok bytes => (c.build now).2.recordSent bytes.length

@[simp] theorem peer_dispatched (c : Channel) (now : Time) : (c.dispatched now).peer = c.peer := by
  unfold dispatched
  split
  · rfl
  · rfl

section
variable {σ : Type} [Transport σ]

theorem transmit_inner (c : Channel) (t : Tap σ) (now : Time) : c.transmit t.inner now =
    ((c.transmit t now).1, (c.transmit t now).2.1, (c.transmit t now).2.2.inner) := by
  simp only [transmit]
  cases (c.build now).1.encode with
  | error e => rfl
  | ok bytes =>
    simp only [Transport.send]
    generalize Transport.send t.inner (c.build now).2.peer bytes = result
    obtain ⟨sent | text, inner⟩ := result
    · rfl
    · rfl

theorem transmit_tap {good : σ → Prop} (hgood : Transport.Faultless good) (c : Channel) {t : Tap σ}
    (ht : good t.inner) (now : Time) :
    (c.transmit t now).1 = none ∧ (c.transmit t now).2.1 = c.dispatched now ∧
      (c.transmit t now).2.2.sent = t.sent ++ c.parcels now ∧
      good (c.transmit t now).2.2.inner := by
  simp only [transmit, dispatched, parcels]
  cases (c.build now).1.encode with
  | error e => exact ⟨rfl, rfl, (List.append_nil _).symm, ht⟩
  | ok bytes =>
    obtain ⟨hsent, hafter⟩ := hgood.send t.inner ht c.peer bytes
    have hpeer : (c.build now).2.peer = c.peer := rfl
    simp only [Transport.send, hpeer, hsent]
    exact ⟨trivial, trivial, rfl, hafter⟩

end

end Channel

namespace Host

section
variable {σ δ : Type} [Transport σ] (h : Host δ) (t : Tap σ) (now : Time)

theorem transmitAll_inner (cs : List Channel) : transmitAll now cs t.inner =
    ((transmitAll now cs t).1, (transmitAll now cs t).2.1, (transmitAll now cs t).2.2.inner) := by
  induction cs generalizing t with
  | nil => rfl
  | cons c rest ih => simp only [transmitAll, c.transmit_inner t now, ih]

theorem transmit_inner :
    h.transmit t.inner now = ((h.transmit t now).1, (h.transmit t now).2.inner) := by
  simp only [transmit, transmitAll_inner t now]

theorem tick_tap [Doorman δ] : h.tick t.inner now = ((h.tick t now).1, (h.tick t now).2.inner) := by
  have hinner := (h.absorb (Transport.receive t.inner Packet.maxSize).1 now).transmit_inner
    (Transport.receive t Packet.maxSize).2 now
  simp only [tick]
  exact congrArg (fun x => ({ x.1.collect with ticks := x.1.ticks + 1 }, x.2)) hinner

end

section
variable {σ δ : Type} [Transport σ] {good : σ → Prop} (hgood : Transport.Faultless good) {t : Tap σ}
  (ht : good t.inner) (h : Host δ) (now : Time)

include hgood ht

theorem transmitAll_tap (cs : List Channel) : (transmitAll now cs t).1 = [] ∧
    (transmitAll now cs t).2.1 = cs.map (·.dispatched now) ∧
    (transmitAll now cs t).2.2.sent = t.sent ++ cs.flatMap (·.parcels now) := by
  induction cs generalizing t with
  | nil => exact ⟨rfl, rfl, (List.append_nil _).symm⟩
  | cons c rest ih =>
    obtain ⟨hfailure, hchannel, hsent, hafter⟩ := c.transmit_tap hgood ht now
    obtain ⟨hevents, hchannels, hrest⟩ := ih hafter
    simp only [transmitAll]
    refine ⟨?_, ?_, ?_⟩
    · rw [hfailure, hevents]
      rfl
    · rw [hchannel, hchannels]
      rfl
    · rw [hrest, hsent, List.flatMap_cons, List.append_assoc]

theorem transmit_tap : (h.transmit t now).1 = { h with roster := h.roster.map (·.dispatched now) } ∧
    (h.transmit t now).2.sent = t.sent ++ h.roster.channels.flatMap (·.parcels now) := by
  obtain ⟨hevents, hchannels, hsent⟩ := transmitAll_tap hgood ht now h.roster.channels
  simp only [transmit, hevents, hchannels, List.append_nil]
  exact ⟨rfl, hsent⟩

end

theorem tick_eq {σ δ : Type} [Transport σ] [Doorman δ] {good : σ → Prop}
    (hgood : Transport.Faultless good) {net : σ} (hnet : good net) (h : Host δ) (now : Time) :
    (h.tick ({ inner := net } : Tap σ) now).1 =
        { ({ h.absorb (Transport.receive net Packet.maxSize).1 now with
            roster := (h.absorb (Transport.receive net Packet.maxSize).1 now).roster.map
              (·.dispatched now) } :
              Host δ).collect with
          ticks := (h.absorb (Transport.receive net Packet.maxSize).1 now).ticks + 1 } ∧
      (h.tick ({ inner := net } : Tap σ) now).2.sent =
        (h.absorb (Transport.receive net Packet.maxSize).1 now).roster.channels.flatMap
          (·.parcels now) := by
  let tap : Tap σ := { inner := (Transport.receive net Packet.maxSize).2 }
  obtain ⟨hhost, hsent⟩ := transmit_tap (t := tap) hgood (hgood.receive net hnet Packet.maxSize).2
    (h.absorb (Transport.receive net Packet.maxSize).1 now) now
  exact ⟨congrArg (fun k => { k.collect with ticks := k.ticks + 1 }) hhost, hsent⟩

end Host

end Courier
