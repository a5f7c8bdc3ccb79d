import Courier.Guest
import Courier.Proofs.Assembly.Verdicts
import Courier.Proofs.Phase

/-!
# A guest believes what it was told

A guest is admitted, plays or counts as rejected only after a verdict that says
so (`Advised.tick`). Messages that come in through its host's datagrams are all
that it learns from; a guest that starts over forgets what it was told.
-/

namespace Courier

namespace Channel

variable {c : Channel}

theorem plain_setPhase (hplain : c.assembly.Plain) (phase : Phase) :
    (c.setPhase phase).assembly.Plain := by
  unfold setPhase
  split
  · exact hplain
  · exact hplain

theorem assembly_transmit {τ : Type} [Transport τ] (c : Channel) (net : τ) (now : Time) :
    (c.transmit net now).2.1.assembly = c.assembly := by
  simp only [transmit]
  split
  · rfl
  · split
    · rfl
    · rfl

/-- Honest messages leave nothing behind that a verdict could be put together from. -/
theorem plain_receive {said : Bool → Prop} {p : Packet} (hplain : c.assembly.Plain)
    (hp : ∀ m ∈ p.messages, m.Honest said) (size : Nat) (now : Time) :
    (c.receive p size now).2.assembly.Plain ∧ ∀ d ∈ (c.receive p size now).1, d.Honest said := by
  cases haccepted : (c.arrivals.record p.header.sequence).1.accepted with
  | false =>
    obtain ⟨hdeliveries, -, -, hassembly, -⟩ := receive_refused c p size now haccepted
    rw [hdeliveries, hassembly]
    exact ⟨hplain, by simp⟩
  | true =>
    obtain ⟨hdeliveries, -, -, hassembly, -⟩ := receive_accepted c p size now haccepted
    rw [hdeliveries, hassembly]
    exact hplain.acceptAll hp

end Channel

inductive GuestUse where
  | send (kind : Kind) (critical : Bool) (payload : Bytes)
  | takeEvents
  | stop

namespace Guest

def use (g : Guest) : GuestUse → Guest
  | .send kind critical payload => (g.send kind critical payload).2
  | .takeEvents => g.takeEvents.2
  | .stop => g.stop

/-- The datagrams that count: verdicts in them say what is true. -/
def Genuine (g : Guest) (said : Bool → Prop) (datagrams : List Datagram) : Prop :=
  ∀ d ∈ datagrams, d.source = g.server → ∀ p, Packet.decode d.bytes = .ok p →
  ∀ m ∈ p.messages, m.Honest said

/-- The guest believes nothing that was not said. -/
structure Advised (said : Bool → Prop) (g : Guest) : Prop where
  plain : g.channel.assembly.Plain
  admitted : g.phase = .admitted ∨ g.phase = .playing → said true
  rejected : g.rejected = true → said false

section
variable {said said' : Bool → Prop} {g g' : Guest} {now : Time}

theorem Advised.mono (hg : g.Advised said) (hsaid : ∀ answer, said answer → said' answer) :
    g.Advised said' where
  plain := hg.plain
  admitted h := hsaid _ (hg.admitted h)
  rejected h := hsaid _ (hg.rejected h)

theorem Advised.of_eq (hg : g.Advised said) (hassembly : g'.channel.assembly = g.channel.assembly)
    (hphase : g'.phase = g.phase) (hrejected : g'.rejected = g.rejected) : g'.Advised said where
  plain := hassembly ▸ hg.plain
  admitted h := hg.admitted (hphase ▸ h)
  rejected h := hg.rejected (hrejected ▸ h)

theorem make_ok {server : Address} {config : GuestConfig}
    (hmake : Guest.make server config now = .ok g) :
    ∃ credentials, g = { config, credentials, channel := .fresh server now } := by
  unfold make at hmake
  cases hcredentials : Credentials.make config.user config.password with
  | error e => simp [hcredentials, Except.map] at hmake
  | ok credentials =>
    rw [hcredentials] at hmake
    exact ⟨credentials, (Except.ok.inj hmake).symm⟩

theorem advised_make {server : Address} {config : GuestConfig}
    (hmake : Guest.make server config now = .ok g) : g.Advised said := by
  obtain ⟨credentials, rfl⟩ := make_ok hmake
  exact ⟨Assembly.plain_empty, by simp [phase, Channel.fresh], by simp⟩

theorem Advised.use (hg : g.Advised said) (u : GuestUse) : (g.use u).Advised said := by
  cases u with
  | send kind critical payload => exact hg.of_eq rfl rfl rfl
  | takeEvents => exact hg.of_eq rfl rfl rfl
  | stop => exact hg.of_eq rfl rfl rfl

-- ---------------------------------------------------------------------------
-- Parts of a tick
-- ---------------------------------------------------------------------------

theorem server_hear (g : Guest) (d : Datagram) (now : Time) :
    (g.hear d now).2.server = g.server := by
  simp only [hear, Channel.accept]
  split
  · cases Packet.decode d.bytes with
    | error e => rfl
    | ok p => exact (g.channel.quiet_receive p d.bytes.length now).peer_eq
  · rfl

theorem Advised.hear {d : Datagram} (hg : g.Advised said) (now : Time) (hd : g.Genuine said [d]) :
    (g.hear d now).2.Advised said ∧ ∀ x ∈ (g.hear d now).1, x.Honest said := by
  simp only [Guest.hear, Channel.accept]
  split
  next hsource =>
    cases hdecode : Packet.decode d.bytes with
    | error e => exact ⟨hg.of_eq rfl rfl rfl, by simp [Except.map]⟩
    | ok p =>
      have hquiet := g.channel.quiet_receive p d.bytes.length now
      obtain ⟨hplain, hdeliveries⟩ := Channel.plain_receive hg.plain
        (hd d (List.mem_singleton_self d) hsource p hdecode) d.bytes.length now
      refine ⟨⟨hplain, fun hphase => hg.admitted ?_, hg.rejected⟩, hdeliveries⟩
      rwa [phase, ← hquiet.phase_eq]
  · exact ⟨hg, by simp⟩

theorem Advised.hearAll {datagrams : List Datagram} (hg : g.Advised said) (now : Time)
    (hd : g.Genuine said datagrams) :
    (Guest.hearAll now g datagrams).2.Advised said ∧
      ∀ x ∈ (Guest.hearAll now g datagrams).1, x.Honest said := by
  induction datagrams generalizing g with
  | nil => exact ⟨hg, by simp [Guest.hearAll]⟩
  | cons d rest ih =>
    have hfirst : g.Genuine said [d] := fun d' hd' => hd d' (by simp_all)
    obtain ⟨hheard, hdeliveries⟩ := hg.hear now hfirst
    have hothers : (g.hear d now).2.Genuine said rest := by
      intro d' hd' hsource
      rw [g.server_hear] at hsource
      exact hd d' (List.mem_cons_of_mem _ hd') hsource
    obtain ⟨hheard', hdeliveries'⟩ := ih hheard hothers
    refine ⟨hheard', fun x hx => ?_⟩
    rcases List.mem_append.mp hx with hx | hx
    · exact hdeliveries x hx
    · exact hdeliveries' x hx

/-- Only here a guest is admitted or rejected. -/
theorem Advised.handle {d : Delivery} (hg : g.Advised said) (hd : d.Honest said) :
    (g.handle d).Advised said := by
  unfold Guest.handle
  split
  next hkind =>
    obtain ⟨answer, hdata, hanswer⟩ := hd hkind
    rw [hdata, Verdict.decode_encode]
    dsimp only
    split
    · cases answer with
      | true =>
        exact
          { plain := Channel.plain_setPhase hg.plain _
            admitted := fun _ => hanswer
            rejected := hg.rejected }
      | false =>
        exact
          { plain := Channel.plain_setPhase hg.plain _
            admitted := by simp [phase]
            rejected := fun _ => hanswer }
    · exact hg
  · exact hg.of_eq rfl rfl rfl

theorem Advised.handleAll {deliveries : List Delivery} (hg : g.Advised said)
    (hd : ∀ d ∈ deliveries, d.Honest said) : (deliveries.foldl Guest.handle g).Advised said := by
  induction deliveries generalizing g with
  | nil => exact hg
  | cons d rest ih =>
    obtain ⟨hfirst, hrest⟩ := List.forall_mem_cons.mp hd
    exact ih (hg.handle hfirst) hrest

theorem Advised.expire (hg : g.Advised said) (now : Time) : (g.expire now).Advised said := by
  unfold Guest.expire
  split
  · -- starting over, it forgets that it was admitted but not that it was rejected
    exact
      { plain := Assembly.plain_empty
        admitted := by simp [phase, Channel.fresh]
        rejected := hg.rejected }
  · exact hg

theorem Advised.proceed (hg : g.Advised said) : g.proceed.Advised said := by
  obtain ⟨result, channel, hqueued, hassembly, hphase⟩ :
      ∃ result channel, g.channel.enqueue .credentials true g.credentials.encode =
        (result, channel) ∧
        channel.assembly = g.channel.assembly ∧ channel.phase = g.phase := ⟨_, _, rfl, rfl, rfl⟩
  unfold Guest.proceed
  rw [hqueued]
  split
  · split
    · exact hg
    · cases result with
      | ok id =>
        exact
          { plain := Channel.plain_setPhase (hassembly ▸ hg.plain) _
            admitted := by simp [phase]
            rejected := hg.rejected }
      | error e => exact hg.of_eq hassembly hphase rfl
  next hadmitted =>
    exact
      { plain := Channel.plain_setPhase hg.plain _
        admitted := fun _ => hg.admitted (.inl hadmitted)
        rejected := hg.rejected }
  · exact hg
  · exact hg

theorem Advised.transmit {τ : Type} [Transport τ] (hg : g.Advised said) (net : τ) (now : Time) :
    (g.transmit net now).1.Advised said := by
  have hsent : ({ g with channel := (g.channel.transmit net now).2.1 } : Guest).Advised said :=
    hg.of_eq (g.channel.assembly_transmit net now) (g.channel.quiet_transmit net now).phase_eq rfl
  simp only [Guest.transmit]
  cases (g.channel.transmit net now).1 with
  | none => exact hsent
  | some text => exact hsent.of_eq rfl rfl rfl

theorem Advised.collect (hg : g.Advised said) : g.collect.Advised said := hg.of_eq rfl rfl rfl

theorem Advised.counted (hg : g.Advised said) (ticks : Nat) :
    ({ g with ticks } : Guest).Advised said :=
  hg.of_eq rfl rfl rfl

theorem Advised.absorb {inflow : Inflow} (hg : g.Advised said) (now : Time)
    (hd : g.Genuine said inflow.datagrams) : (g.absorb inflow now).Advised said := by
  have hquiet := g.channel.quiet_settle
  have hsettled : ({ g with channel := g.channel.settle.2 } : Guest).Advised said :=
    hg.of_eq g.channel.settle_spec.2.2.1 hquiet.phase_eq rfl
  have hgenuine :
      ({ g with channel := g.channel.settle.2 } : Guest).Genuine said inflow.datagrams := by
    intro d hmem hsource
    exact hd d hmem (hsource.trans hquiet.peer_eq)
  obtain ⟨hheard, hdeliveries⟩ := hsettled.hearAll now hgenuine
  unfold Guest.absorb
  refine ((Advised.handleAll ?_ hdeliveries).expire now).proceed
  cases inflow.failure with
  | none => exact hheard
  | some text => exact hheard.of_eq rfl rfl rfl

theorem Advised.tick {τ : Type} [Transport τ] {net : τ} (hg : g.Advised said) (now : Time)
    (hd : g.Genuine said (Transport.receive net Packet.maxSize).1.datagrams) :
    (g.tick net now).1.Advised said := by
  have hcollected :=
    ((hg.absorb now hd).transmit (Transport.receive net Packet.maxSize).2 now).collect
  simp only [Guest.tick]
  exact hcollected.counted _

end

end Guest

end Courier
