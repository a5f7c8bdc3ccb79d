import Courier.Proofs.Chronicle.Conservation
import Courier.Proofs.Chronicle.Reports

/-!
# What packets carry

`Labelled` says that the numbers which a history keeps beside messages are
right: every message in the outbox and in every packet built is a message of
the payload with its number, and a critical message in flight is in the packet
sent last at the position it is tagged with.
-/

namespace Courier

def Dispatch.position (r : Dispatch) : UInt8 := (Window.index r.sequence).toUInt8

namespace Chronicle

open Outgoing (Inherits)
open Payload (Belongs)

structure Labelled (c : Chronicle) : Prop where
  fits : ∀ p ∈ c.payloads, Outbox.messagesNeeded p.data.length < Outbox.capacity
  slots : ∀ i m, (c.outbox.slot i).message? = some m → Belongs c.payloads (m, c.manifest i)
  length_numbers : ∀ r ∈ c.sent, r.numbers.length = r.packet.messages.length
  cargo : ∀ r ∈ c.sent, ∀ x ∈ r.cargo, Belongs c.payloads x
  aboard : ∀ i m packet, c.outbox.slot i = .inFlight m packet → m.critical = true →
    ∃ k, ∃ hk : k < c.sent.length, c.sent.length ≤ k + 32 ∧ k % 32 = packet.toNat ∧
      (m, c.manifest i) ∈ c.sent[k].cargo

section
variable {c : Chronicle}

theorem labelled_start (peer : Address) (now : Time) : (start peer now).Labelled where
  fits p hp := nomatch hp
  slots i m hm := by simp [start, outbox, Channel.fresh, Outbox.slot, Slot.message?] at hm
  length_numbers r hr := nomatch hr
  cargo r hr := nomatch hr
  aboard i m packet hs := by simp [start, outbox, Channel.fresh, Outbox.slot] at hs

theorem Labelled.moved {c' : Chronicle} (h : c.Labelled) (hpayloads : c'.payloads = c.payloads)
    (hsent : c'.sent = c.sent) (origin : Place → Place)
    (hmanifest : ∀ i, c'.manifest i = c.manifest (origin i))
    (hslot : ∀ i, Inherits (c'.outbox.slot i) (c.outbox.slot (origin i))) : c'.Labelled := by
  refine ⟨?_, ?_, ?_, ?_, ?_⟩
  · rw [hpayloads]
    exact h.fits
  · intro i m hm
    rw [hpayloads, hmanifest]
    exact h.slots _ m ((hslot i).message? hm)
  · rw [hsent]
    exact h.length_numbers
  · rw [hpayloads, hsent]
    exact h.cargo
  · intro i m packet hs hc
    simp only [hsent, hmanifest]
    exact h.aboard _ m packet ((hslot i).inFlight hs) hc

theorem Labelled.settle (h : c.Labelled) (hi : c.Intact) : c.settle.Labelled := by
  obtain ⟨-, -, -, hinherits⟩ := Outgoing.settle_spec hi.held.ring c.channel.departures.upcoming
    c.channel.departures.acked
  refine h.moved rfl rfl
    (c.outbox.origin (c.channel.outgoing.lostPlaces c.channel.departures.upcoming
    c.channel.departures.acked)) (fun i => rfl) ?_
  intro i
  rw [outbox, outgoing_settle]
  exact hinherits i

theorem Labelled.receive (h : c.Labelled) (hi : c.Intact) (r : Dispatch) (size : Nat) (now : Time) :
    (c.receive r size now).Labelled := by
  obtain ⟨places, hconfirming⟩ := hi.confirming r size now
  refine h.moved hconfirming.payloads_eq hconfirming.sent_eq id
    (fun i => congrFun hconfirming.manifest_eq i) ?_
  intro i
  rw [hconfirming.released.slot_eq]
  split
  · exact Outgoing.inherits_released _
  · exact Outgoing.inherits_self _

theorem Labelled.enqueue (h : c.Labelled) (hi : c.Intact) (p : Payload) :
    (c.enqueue p).Labelled := by
  rcases hi.enqueue_cases p with hsame | ⟨hqueue, hok, hfits⟩
  · rw [hsame]
    exact h
  · rw [hqueue]
    have hslot := (hi.pushed p hok).slot_eq
    refine ⟨?_, ?_, h.length_numbers, ?_, ?_⟩
    · intro q hq
      rcases List.mem_append.mp hq with hq | hq
      · exact h.fits q hq
      · rw [List.mem_singleton.mp hq]
        omega
    · intro i m hm
      rcases hslot i with ⟨j, hj, hnumber⟩ | ⟨m', hm', hpending, hnumber⟩
      · rw [hj] at hm
        rw [hnumber]
        exact (h.slots j m hm).append [p]
      · rw [hpending] at hm
        obtain rfl := Option.some.inj hm
        rw [hnumber]
        exact ⟨p, List.getElem?_concat_length, hm'⟩
    · intro r hr x hx
      exact (h.cargo r hr x hx).append [p]
    · intro i m packet hs hc
      rcases hslot i with ⟨j, hj, hnumber⟩ | ⟨m', -, hpending, -⟩
      · rw [hj] at hs
        rw [hnumber]
        exact h.aboard j m packet hs hc
      · cases hpending.symm.trans hs

def dispatch (c : Chronicle) (now : Time) : Dispatch :=
  { packet := (c.channel.build now).1
    numbers := c.manifest.front c.outbox (c.channel.build now).1.messages.length
    heard := c.heard }

theorem sent_build (c : Chronicle) (now : Time) : (c.build now).sent = c.sent ++ [c.dispatch now] :=
  rfl

/-- A packet carries the oldest pending messages with their numbers. -/
theorem Intact.mem_cargo (hi : c.Intact) {now : Time} {x : Message × Nat} :
    x ∈ (c.dispatch now).cargo ↔
      ∃ k < (c.channel.build now).1.messages.length,
        c.outbox.slot (c.outbox.start.forward k) = .pending x.1 ∧
          c.manifest (c.outbox.start.forward k) = x.2 := by
  have hdrained := hi.drained now
  simp only [Dispatch.cargo, dispatch, Manifest.front, List.mem_iff_getElem, List.getElem_zip,
    List.getElem_map, List.getElem_range, List.length_zip, List.length_map, List.length_range,
    Nat.min_self]
  constructor
  · rintro ⟨k, hk, rfl⟩
    exact ⟨k, hk, hdrained.message_eq k hk, rfl⟩
  · rintro ⟨k, hk, hs, hnumber⟩
    refine ⟨k, hk, ?_⟩
    have hsame := (hdrained.message_eq k hk).symm.trans hs
    rw [Slot.pending.injEq] at hsame
    exact Prod.ext hsame hnumber

theorem Reports.toNat_upcoming (hr : c.Reports) :
    (Window.index c.channel.departures.upcoming).toUInt8.toNat = c.sent.length % 32 := by
  rw [Window.toNat_tag, hr.upcoming_eq, UInt32.toNat_ofNat']
  omega

theorem Reports.toNat_position (hr : c.Reports) {k : Nat} (hk : k < c.sent.length) :
    c.sent[k].position.toNat = k % 32 := by
  rw [Dispatch.position, Window.toNat_tag, hr.sequence_eq k hk, UInt32.toNat_ofNat']
  omega

/-- Once the channel is settled, no critical message is in flight in the packet
one window before the next one. -/
theorem Intact.sent_ne (hi : c.Intact) (hr : c.Reports) (hsettled : c.settled = true) {i : Place}
    {m : Message} {packet : UInt8} {k : Nat} (hs : c.outbox.slot i = .inFlight m packet)
    (hc : m.critical = true) (hposition : k % 32 = packet.toNat) : c.sent.length ≠ k + 32 := by
  intro e
  obtain ⟨-, hsent, -⟩ := hi.held.held hs hc
  have htag : packet = (Window.index c.channel.departures.upcoming).toUInt8 :=
    Window.eq_tag (by rw [← hposition, ← Window.toNat_tag, hr.toNat_upcoming]; omega)
  rw [htag, Window.has_tag, hi.clear hsettled] at hsent
  cases hsent

theorem Labelled.build (h : c.Labelled) (hi : c.Intact) (hr : c.Reports)
    (hsettled : c.settled = true) (now : Time) : (c.build now).Labelled := by
  have hdrained := hi.drained now
  refine ⟨h.fits, ?_, ?_, ?_, ?_⟩
  · intro i m hm
    rw [hdrained.slot_eq] at hm
    refine h.slots i m ?_
    split at hm
    · cases hs : c.outbox.slot i with
      | free => rw [hs] at hm; exact hm
      | pending m' => rw [hs] at hm; exact hm
      | inFlight m' packet => rw [hs] at hm; exact hm
    · exact hm
  · intro r hr
    rcases List.mem_append.mp hr with hr | hr
    · exact h.length_numbers r hr
    · rw [List.mem_singleton.mp hr]
      exact Manifest.length_front _ _ _
  · intro r hr x hx
    rcases List.mem_append.mp hr with hr | hr
    · exact h.cargo r hr x hx
    · rw [List.mem_singleton.mp hr] at hx
      obtain ⟨k, -, hs, hnumber⟩ := hi.mem_cargo.mp hx
      have := h.slots (c.outbox.start.forward k) x.1 (by rw [hs]; rfl)
      rwa [hnumber] at this
  · intro i m packet hs hc
    have hlen : (c.build now).sent.length = c.sent.length + 1 := by
      rw [sent_build, List.length_append]
      rfl
    rcases hdrained.inFlight hs with hbefore | ⟨hpending, rfl, hoffset⟩
    · obtain ⟨k, hk, hrecent, hposition, hmem⟩ := h.aboard i m packet hbefore hc
      have hne := hi.sent_ne hr hsettled hbefore hc hposition
      refine ⟨k, by omega, by omega, hposition, ?_⟩
      simp only [sent_build, List.getElem_append_left hk]
      exact hmem
    · refine ⟨c.sent.length, by omega, by omega, hr.toNat_upcoming.symm, ?_⟩
      simp only [sent_build, List.getElem_concat_length]
      exact hi.mem_cargo.mpr ⟨_, hoffset, by rw [Place.forward_offset]; exact hpending,
        by rw [Place.forward_offset]; rfl⟩

theorem Labelled.step (h : c.Labelled) (hi : c.Intact) (hr : c.Reports) {a : Action}
    (hrule : c.Orderly a) : (c.step a).Labelled := by
  cases a with
  | settle => exact h.settle hi
  | enqueue p => exact h.enqueue hi p
  | build now => exact h.build hi hr hrule now
  | receive r size now => exact h.receive hi r size now
  | takeNotices =>
    exact h.moved rfl rfl (fun i => i) (fun i => rfl) fun i =>
      Outgoing.inherits_self _

theorem Reachable.labelled (h : Reachable Orderly c) : c.Labelled := by
  induction h with
  | start peer now => exact labelled_start peer now
  | step hreach hrule ih => exact ih.step hreach.intact hreach.reports hrule

end

end Chronicle

end Courier
