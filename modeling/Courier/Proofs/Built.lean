import Courier.Proofs.Chronicle.Resend
import Courier.Proofs.Daybook.Verdicts
import Courier.Proofs.Driven
import Courier.Proofs.Outgoing.Shape

/-!
# Every packet that is built can be sent

What a slot of an outbox holds fits a message, whatever became of the slot since
it was written, and a packet takes only messages that fit together. So no packet
of a channel breaks a limit of the codec, neither on its own nor on a host or a
guest (`built_round_trips`).
-/

namespace Courier

namespace Packet

/-- The packet is written, and what was written is read as this packet. -/
structure RoundTrips (p : Packet) : Prop where
  count_eq : p.header.count.toNat = p.messages.length
  sizes_le : (p.messages.map (·.wireSize)).sum ≤ 492
  read_back : ∃ bytes, p.encode = .ok bytes ∧ decode bytes = .ok p

variable {p : Packet}

theorem payloadSize_eq_sum (p : Packet) : p.payloadSize = (p.messages.map (·.wireSize)).sum := by
  rw [payloadSize, List.sum, List.foldr_map]

theorem RoundTrips.of_counted (hprotocol : p.header.protocol = protocolId)
    (hcounted : p.counted = p) (hfits : ∀ m ∈ p.messages, m.data.length ≤ Message.maxData)
    (hsizes : (p.messages.map (·.wireSize)).sum ≤ capacity) : p.RoundTrips := by
  have hsize : p.payloadSize ≤ capacity := p.payloadSize_eq_sum ▸ hsizes
  have hmany : p.messages.length ≤ maxMessages := length_le_of_payloadSize hsize
  obtain ⟨bytes, hbytes⟩ := (encode_isOk_iff p).mpr ⟨hmany, hfits, hsize⟩
  have hread := WithinLimits.decode_encode hprotocol hbytes
  have hcount := (framed_counted hprotocol hmany hfits).count_eq
  rw [hcounted] at hread hcount
  exact ⟨hcount, hsizes, bytes, hbytes, hread⟩

end Packet

-- ---------------------------------------------------------------------------
-- One channel
-- ---------------------------------------------------------------------------

namespace Channel

theorem Fits.build_roundTrips {c : Channel} (h : c.Fits) (now : Time) :
    (c.build now).1.RoundTrips :=
  .of_counted rfl rfl (fun m hm => h m (holds_of_mem_build hm)) (Outbox.sum_drainUpTo _ _ _ _)

end Channel

namespace Chronicle

variable {c : Chronicle}

theorem mem_sent_step {a : Action} {r : Dispatch} (hr : r ∈ (c.step a).sent) :
    r ∈ c.sent ∨ ∃ now, r.packet = (c.channel.build now).1 := by
  cases a with
  | enqueue p =>
    simp only [step, enqueue] at hr
    split at hr
    · exact .inl hr
    · exact .inl hr
  | build now =>
    rcases List.mem_append.mp hr with hold | hnew
    · exact .inl hold
    · rw [List.mem_singleton.mp hnew]
      exact .inr ⟨now, rfl⟩
  | receive q size now =>
    simp only [step, receive] at hr
    split at hr
    · exact .inl hr
    · exact .inl hr
  | _ => exact .inl hr

theorem Reachable.sent_roundTrips {rule : Chronicle → Action → Prop} (h : Reachable rule c) :
    ∀ r ∈ c.sent, r.packet.RoundTrips := by
  induction h with
  | start peer now => exact fun r hr => nomatch hr
  | step h _ ih =>
    intro r hr
    rcases mem_sent_step hr with hold | ⟨now, hbuilt⟩
    · exact ih r hold
    · rw [hbuilt]
      exact h.driven.fits.build_roundTrips now

end Chronicle

-- ---------------------------------------------------------------------------
-- The channels of a host
-- ---------------------------------------------------------------------------

namespace Host

variable {σ δ : Type} [Doorman δ] {h : Host δ}

/-- No channel holds a message with too much data. -/
def Fits (h : Host δ) : Prop := ∀ c ∈ h.roster.channels, c.Fits

theorem Queued.length_data_le {m : HostMove σ} {peer : Address} {x : Message}
    (hx : h.Queued m peer x) : x.data.length ≤ Message.maxData := by
  cases hx with
  | sent hx => exact Outbox.length_data_of_mem_pieces hx
  | spread hx => exact Outbox.length_data_of_mem_pieces hx
  | checking hx => exact Outbox.length_data_of_mem_pieces hx
  | answer _ _ _ _ hx => exact Outbox.length_data_of_mem_pieces hx

theorem Fits.act [Transport σ] (hh : h.Fits) (m : HostMove σ) : (h.act m).Fits := by
  intro c hc x hx
  rcases act_holds ⟨c, hc, rfl, hx⟩ with hqueued | ⟨c', hc', -, hold⟩
  · exact hqueued.length_data_le
  · exact hh c' hc' x hold

end Host

theorem Daybook.Run.fits {σ δ : Type} [Transport σ] [Doorman δ] {b : Daybook σ δ} (hb : b.Run) :
    b.host.Fits := by
  induction hb with
  | start config doorman => exact fun c hc => nomatch hc
  | record _ _ ih => exact ih.act _

/-- Every packet that was built by a channel on its own, by a channel of a host
or by a guest within a tick is written and read back as it was. -/
theorem built_round_trips {σ δ : Type} [Transport σ] [Doorman δ] :
    (∀ (rule : Chronicle → Action → Prop) (c : Chronicle), c.Reachable rule →
      ∀ r ∈ c.sent, r.packet.RoundTrips) ∧
      (∀ b : Daybook σ δ, b.Reachable → ∀ e ∈ b.entries, ∀ net now, e.move = .transmit net now →
        ∀ c ∈ e.host.roster.channels, (c.build now).1.RoundTrips) ∧
      ∀ g : Guest, g.Reachable σ →
      ∀ inflow now, ((g.absorb inflow now).channel.build now).1.RoundTrips := by
  refine ⟨fun rule c hc => hc.sent_roundTrips, fun b hb e he net now _ c hc => ?_,
    fun g hg inflow now => ?_⟩
  · obtain ⟨before, after, hentries⟩ := List.append_of_mem he
    exact ((hb.run.earlier hentries).fits c hc).build_roundTrips now
  · exact (Channel.Driven.fits (hg.driven.absorb inflow now)).build_roundTrips now

namespace Chronicle

def laden : List Action :=
  .enqueue ⟨.data, true, List.replicate 1100 7⟩ :: (List.replicate 33 [.settle, .build 0]).flatten

def opening : Chronicle := .start { ip := .v4 0x0A000001, port := 4000 } 0

theorem built_round_trips_laden :
    let c := laden.foldl Chronicle.step opening
    c.Reachable Roomy ∧ (∀ r ∈ c.sent, r.packet.RoundTrips) ∧
      c.sent.map (fun r => r.packet.messages.length) =
        5 :: 4 :: 4 :: List.replicate 29 0 ++ [5] := by
  have hopening : opening.Reachable Roomy := .start _ _
  have hreachable : (laden.foldl Chronicle.step opening).Reachable Roomy :=
    hopening.run (by decide +kernel)
  exact ⟨hreachable, (@built_round_trips Script BanList _ _).1 Roomy _ hreachable,
    by decide +kernel⟩

end Chronicle

end Courier
