import Courier.Proofs.Daybook.Verdicts
import Courier.Proofs.Guest

/-!
# A guest and a host agree

A guest talks to a host over a network that may lose, repeat, delay and reorder
datagrams. `handshake_agreement`: whatever the guest believes about its
admission, the doorman of the host has said.
-/

namespace Courier

/-- A guest, and a host with its history. -/
structure Meeting (σ δ : Type) where
  guest : Guest
  book : Daybook σ δ

namespace Meeting

open Daybook (Answered Entry sentTo)

variable {σ δ : Type}

/-- Of the datagrams that arrive, those that seem to come from the host were
sent by it to the address. They may be old, and some may be missing. -/
def Unforged (m : Meeting σ δ) (address : Address) (datagrams : List Datagram) : Prop :=
  ∀ d ∈ datagrams, d.source = m.guest.server → d.bytes ∈ sentTo address m.book.entries

variable [Transport σ] [Doorman δ]

/-- The meetings of a host with a guest at an address. The owner of the host
sends no verdicts; nothing is asked of the datagrams that reach the host. -/
inductive Reachable (address : Address) : Meeting σ δ → Prop
  | start {server : Address} {guestConfig : GuestConfig} {now : Time} {guest : Guest}
      (hostConfig : HostConfig)
    (doorman : δ) : Guest.make server guestConfig now = .ok guest →
    Reachable address { guest, book := { host := .make hostConfig doorman } }
  | guestTick {m : Meeting σ δ} {τ : Type} [Transport τ] (net : τ) (now : Time) :
      Reachable address m →
    m.Unforged address (Transport.receive net Packet.maxSize).1.datagrams →
    Reachable address { m with guest := (m.guest.tick net now).1 }
  | guestUse {m : Meeting σ δ} (u : GuestUse) : Reachable address m →
    Reachable address { m with guest := m.guest.use u }
  | hostTick {m : Meeting σ δ} (net : σ) (now : Time) : Reachable address m →
    Reachable address { m with book := m.book.tick net now }
  | hostAct {m : Meeting σ δ} {move : HostMove σ} : Reachable address m → move.isOwners = true →
    move.isVerdict = false → Reachable address { m with book := m.book.record move }

/-- The host is candid, and the guest believes what its doorman said. -/
structure Agreed (address : Address) (m : Meeting σ δ) : Prop where
  reachable : m.book.Reachable
  own : ∀ e ∈ m.book.entries, e.move.isVerdict = false
  advised : m.guest.Advised (Answered address m.book.entries)

section
variable {m : Meeting σ δ} {address : Address}

theorem Agreed.genuine {datagrams : List Datagram} (hm : m.Agreed address)
    (hd : m.Unforged address datagrams) :
    m.guest.Genuine (Answered address m.book.entries) datagrams := by
  intro d hmem hsource p hp
  exact (hm.reachable.run.candid hm.own).sent address d.bytes (hd d hmem hsource) p hp

theorem Agreed.hostTick (hm : m.Agreed address) (net : σ) (now : Time) :
    Agreed address { m with book := m.book.tick net now } := by
  obtain ⟨added, hentries, hmoves⟩ := m.book.entries_foldl_record (m.book.host.tickMoves net now)
  rw [← Daybook.tick_eq] at hentries
  refine ⟨hm.reachable.tick net now, fun e he => ?_, ?_⟩
  · rw [hentries] at he
    rcases List.mem_append.mp he with hold | hnew
    · exact hm.own e hold
    · exact Host.isVerdict_of_mem_tickMoves (hmoves e hnew)
  · rw [hentries]
    exact hm.advised.mono fun _ ha => ha.append added

theorem Agreed.hostAct {move : HostMove σ} (hm : m.Agreed address) (howners : move.isOwners = true)
    (hverdict : move.isVerdict = false) : Agreed address { m with book := m.book.record move } where
  reachable := hm.reachable.act howners
  own e he := by
    rcases List.mem_append.mp he with hold | hnew
    · exact hm.own e hold
    · obtain rfl := List.mem_singleton.mp hnew
      exact hverdict
  advised := hm.advised.mono fun _ ha => ha.append _

theorem Reachable.agreed (hm : m.Reachable address) : m.Agreed address := by
  induction hm with
  | start hostConfig doorman hmake =>
    exact ⟨.start hostConfig doorman, by simp, Guest.advised_make hmake⟩
  | guestTick net now _ hnet ih =>
    exact ⟨ih.reachable, ih.own, ih.advised.tick now (ih.genuine hnet)⟩
  | guestUse u _ ih => exact ⟨ih.reachable, ih.own, ih.advised.use u⟩
  | hostTick net now _ ih => exact ih.hostTick net now
  | hostAct _ howners hverdict ih => exact ih.hostAct howners hverdict

/-- If the guest is admitted or plays, the doorman admitted credentials that were
delivered from its address, and if the host never timed the address out, it is
admitted or plays there too. If the guest was rejected, the doorman refused such
credentials. The guest may well time the host out: it only starts over. -/
theorem handshake_agreement (hm : m.Reachable address) :
    (m.guest.phase = .admitted ∨ m.guest.phase = .playing →
      Answered address m.book.entries true ∧
        ((∀ e ∈ m.book.entries, .timedOut address ∉ e.emitted) →
          ∃ c, m.book.host.channel? address = some c ∧
            (c.phase = .admitted ∨ c.phase = .playing))) ∧
      (m.guest.rejected = true → Answered address m.book.entries false) := by
  obtain ⟨hbook, -, hadvised⟩ := hm.agreed
  refine ⟨fun hphase => ?_, hadvised.rejected⟩
  have hanswered := hadvised.admitted hphase
  exact ⟨hanswered, fun hkept => hbook.run.standing hkept hanswered⟩

end

-- ---------------------------------------------------------------------------
-- Two visits
-- ---------------------------------------------------------------------------

open Daybook (visitor)

def lobby : Address := { ip := .v4 0x7F000001, port := Packet.defaultPort }

def arrival (user : String) : Meeting Script BanList where
  guest :=
    { config := { user }, credentials := { user, password := "1234" }, channel := .fresh lobby 0 }
  book := { host := .make {} { users := ["mallory"] } }

def toGuest (m : Meeting Script BanList) : Script where
  incoming := (sentTo visitor m.book.entries).map fun bytes => (0, { source := lobby, bytes })

def toHost (m : Meeting Script BanList) : Script where
  incoming :=
    (m.guest.tick m.toGuest 0).2.sent.map fun (_, bytes) => (0, { source := visitor, bytes })

def round (m : Meeting Script BanList) : Meeting Script BanList where
  guest := (m.guest.tick m.toGuest 0).1
  book := m.book.tick m.toHost 0

theorem unforged_toGuest (m : Meeting Script BanList) :
    m.Unforged visitor (Transport.receive m.toGuest Packet.maxSize).1.datagrams := by
  intro d hd _
  obtain ⟨x, hx, rfl⟩ := List.mem_map.mp hd
  obtain ⟨bytes, hbytes, rfl⟩ := List.mem_map.mp (List.mem_filter.mp hx).1
  have hwhole : bytes.take Packet.maxSize = bytes :=
    List.take_of_length_le (Nat.le_of_eq (Daybook.length_of_mem_sentTo hbytes))
  rw [show (Datagram.cut { source := lobby, bytes } Packet.maxSize).bytes = bytes from hwhole]
  exact hbytes

theorem Reachable.round {m : Meeting Script BanList} (hm : m.Reachable visitor) :
    m.round.Reachable visitor := by
  have hhost := (hm.guestTick m.toGuest 0 m.unforged_toGuest).hostTick m.toHost 0
  simpa only [Meeting.round] using hhost

/-- One user is let in and plays; the other is turned away. -/
theorem handshake_agreement_visits :
    ((arrival "player").round.round.Reachable visitor ∧
      (arrival "player").round.round.guest.phase = .playing ∧
      (∀ e ∈ (arrival "player").round.round.book.entries, .timedOut visitor ∉ e.emitted) ∧
      Answered visitor (arrival "player").round.round.book.entries true ∧
      ∃ c, (arrival "player").round.round.book.host.channel? visitor = some c ∧
        (c.phase = .admitted ∨ c.phase = .playing)) ∧
      (arrival "mallory").round.round.Reachable visitor ∧
      (arrival "mallory").round.round.guest.rejected = true ∧
      Answered visitor (arrival "mallory").round.round.book.entries false := by
  have hplayer : (arrival "player").Reachable visitor :=
    .start _ _ (rfl : Guest.make lobby { user := "player" } 0 = _)
  have hmallory : (arrival "mallory").Reachable visitor :=
    .start _ _ (rfl : Guest.make lobby { user := "mallory" } 0 = _)
  have hphase : (arrival "player").round.round.guest.phase = .playing := by decide +kernel
  have hkept :
      ∀ e ∈ (arrival "player").round.round.book.entries, .timedOut visitor ∉ e.emitted := by
    decide +kernel
  have hrejected : (arrival "mallory").round.round.guest.rejected = true := by decide +kernel
  obtain ⟨hanswered, hstanding⟩ := (handshake_agreement hplayer.round.round).1 (.inr hphase)
  exact ⟨⟨hplayer.round.round, hphase, hkept, hanswered, hstanding hkept⟩,
    hmallory.round.round, hrejected, (handshake_agreement hmallory.round.round).2 hrejected⟩

end Meeting

end Courier
