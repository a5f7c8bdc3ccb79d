import Courier.Proofs.Host
import Courier.Proofs.Outbox.Queueing

/-!
# The answer to a request to be let in

A host decides on credentials first and queues its verdict then, behind a short
note. Both are queued if two slots are left and two may be given up
(`Ring.answer`). If not, the peer is in the phase that the doorman chose for it
all the same, and does not learn of it (`answered_or_failed`).
-/

namespace Courier

namespace Host

/-- What a host queues for a peer that asks to be let in: a note, then the verdict. -/
def note : Payload := { kind := .data, critical := false, data := checking }

def verdict (accepted : Bool) : Payload :=
  { kind := .verdict, critical := true, data := [if accepted then 1 else 0] }

theorem needed_note : Outbox.messagesNeeded note.data.length = 1 := by decide

theorem needed_verdict (accepted : Bool) :
    Outbox.messagesNeeded (verdict accepted).data.length = 1 := rfl

def noteMessage (id : UInt8) : Message :=
  { kind := .data, critical := false, fragment := id, order := 0, data := checking }

def verdictMessage (id : UInt8) (accepted : Bool) : Message :=
  { kind := .verdict, critical := true, fragment := id, order := 0,
    data := [if accepted then 1 else 0] }

end Host

namespace Outbox

section
variable {box after : Outbox} {acked : UInt32} {accepted : Bool}

def answer (box : Outbox) (acked : UInt32) (accepted : Bool) : Except OutboxError UInt8 × Outbox :=
  (box.enqueue .data false Host.checking acked).2.enqueue .verdict true
    [if accepted then 1 else 0] acked

theorem Filled.fitting_iff {p q : Payload} (h : box.Filled after p acked) (hring : box.Ring) :
    after.Fitting q acked ↔
      messagesNeeded p.data.length + messagesNeeded q.data.length ≤ 31 - box.length ∧
        messagesNeeded p.data.length + messagesNeeded q.data.length ≤ box.reusableCount acked := by
  have hlength := h.length_eq hring
  have hcount := h.reusable_eq
  have hpos := messagesNeeded_pos q.data.length
  constructor
  · intro hfit
    have hle := hfit.length_add_le
    have hspare := hfit.2
    omega
  · rintro ⟨hroom, hspare⟩
    rw [Fitting, room_of_le (by omega)]
    omega

/-- Room for two messages. -/
def RoomForTwo (box : Outbox) (acked : UInt32) : Prop :=
  2 ≤ 31 - box.length ∧ 2 ≤ box.reusableCount acked

/-- The note and the verdict are queued if there is room for both; else the verdict is refused. -/
theorem Ring.answer (h : box.Ring) (hspare : box.length < 32) (acked : UInt32) (accepted : Bool) :
    (box.RoomForTwo acked → (box.answer acked accepted).1 = .ok (box.nextId + 1) ∧
        (box.answer acked accepted).2.pending = box.pending ++
          [Host.noteMessage box.nextId, Host.verdictMessage (box.nextId + 1) accepted]) ∧
      (¬ box.RoomForTwo acked → (∃ e, (box.answer acked accepted).1 = .error e) ∧
        (box.answer acked accepted).2.pending <+:
          box.pending ++ [Host.noteMessage box.nextId]) := by
  have hchain : box.answer acked accepted =
      (box.enqueue Host.note.kind Host.note.critical Host.note.data acked).2.enqueue
        (Host.verdict accepted).kind
        (Host.verdict accepted).critical (Host.verdict accepted).data acked := rfl
  by_cases hfirst : box.Fitting Host.note acked
  · obtain ⟨noted, hresult, hfilled⟩ := h.enqueue_fitting hfirst
    have hpending : noted.pending = box.pending ++ [Host.noteMessage box.nextId] := by
      rw [hfilled.pending_eq, pieces_short (by decide)]
      rfl
    have hroom : noted.Fitting (Host.verdict accepted) acked ↔ box.RoomForTwo acked := by
      rw [hfilled.fitting_iff h, Host.needed_note, Host.needed_verdict]
      rfl
    rw [hchain, hresult]
    refine ⟨fun hboth => ?_, fun hnot => ?_⟩
    · obtain ⟨answered, hverdict, hdone⟩ := hfilled.ring.enqueue_fitting (hroom.mpr hboth)
      have hshort : (Host.verdict accepted).data.length ≤ Message.maxData := Nat.le_add_left 1 95
      rw [hverdict, hdone.pending_eq, hpending, hfilled.nextId_eq, pieces_short hshort,
        List.append_assoc]
      exact ⟨rfl, rfl⟩
    · rw [enqueue_refused (mt hroom.mp hnot)]
      exact ⟨⟨_, rfl⟩, hpending ▸ List.prefix_rfl⟩
  · have hsecond : ¬ box.Fitting (Host.verdict accepted) acked := hfirst
    rw [hchain, enqueue_refused hfirst, enqueue_refused hsecond]
    refine ⟨fun hboth => ?_, fun _ => ⟨⟨_, rfl⟩, List.prefix_append _ _⟩⟩
    rw [Fitting, Host.needed_note, room_of_le (Nat.le_of_lt_succ hspare)] at hfirst
    have hroom := hboth.1
    have hcount := hboth.2
    omega

end

end Outbox

namespace Host

section
variable {δ : Type} [Doorman δ] {h : Host δ} {peer : Address} {c : Channel} {d : Delivery}

theorem review_answer (h : Host δ) (c : Channel) (credentials : Credentials) :
    let accepted := (Doorman.admits h.doorman c.peer credentials).1
    let answer := c.outbox.answer c.departures.acked accepted
    ∃ c', (h.review c credentials).roster = h.roster.set c' ∧ c'.peer = c.peer ∧
      c'.phase = (if accepted then .admitted else .idle) ∧ c'.outbox = answer.2 ∧
      (∀ id, answer.1 = .ok id → (h.review c credentials).events = h.events) ∧
      ∀ e, answer.1 = .error e →
      (h.review c credentials).events = h.events ++ [.failed c.peer (.outbox e)] := by
  intro accepted answer
  let asking := ((c.setPhase .asking).enqueue .data false checking).2
  let sent := (asking.setPhase (if accepted then .admitted else .idle)).enqueue .verdict true
    (Verdict.encode accepted)
  have hsent : sent.1 = answer.1 ∧ sent.2.outbox = answer.2 := by
    simp only [sent, asking, answer, Channel.enqueue, Channel.outbox, Channel.outgoing_setPhase,
      Channel.departures_setPhase, Outbox.answer, Verdict.encode, and_self]
  have hpeer : sent.2.peer = c.peer := by simp [sent, asking]
  refine ⟨sent.2, ?_, hpeer, by simp [sent], hsent.2, fun id hid => ?_, fun e he => ?_⟩
  · simp only [review, Channel.peer_enqueue, Channel.peer_setPhase]
    split
    · rfl
    · rfl
  · rw [← hsent.1] at hid
    simp only [review, Channel.peer_enqueue, Channel.peer_setPhase]
    split
    · rfl
    next he => cases hid.symm.trans he
  · rw [← hsent.1] at he
    simp only [review, Channel.peer_enqueue, Channel.peer_setPhase]
    split
    next hid => cases he.symm.trans hid
    next he' =>
      cases he.symm.trans he'
      rfl

/-- At most 31 slots are pending for an idle peer. A request of it that can be read
leaves it in the phase that the doorman chose for it. If there was room for two
messages, a note and the verdict are queued with that. If not, no verdict is queued
and the failure is reported. -/
theorem answered_or_failed (hc : h.channel? peer = some c) (hbox : c.outbox.Reachable)
    (hspare : c.outbox.length < 32) (hidle : c.phase = .idle) (hkind : d.kind = .credentials) :
    (∀ e, Credentials.decode d.data = .error e →
      h.handle peer d = h.emit (.failed peer (.payload e))) ∧
      ∀ credentials, Credentials.decode d.data = .ok credentials →
        let accepted := (Doorman.admits h.doorman peer credentials).1
        ∃ c', (h.handle peer d).channel? peer = some c' ∧
          c'.phase = (if accepted then .admitted else .idle) ∧
          (c.outbox.RoomForTwo c.departures.acked →
            c'.outbox.pending = c.outbox.pending ++
                [noteMessage c.outbox.nextId, verdictMessage (c.outbox.nextId + 1) accepted] ∧
              (h.handle peer d).events = h.events) ∧
          (¬ c.outbox.RoomForTwo c.departures.acked →
            c'.outbox.pending <+: c.outbox.pending ++ [noteMessage c.outbox.nextId] ∧
              ∃ e, (h.handle peer d).events = h.events ++ [.failed peer (.outbox e)]) := by
  refine ⟨fun e he => ?_, fun credentials hdecode => ?_⟩
  · simp only [handle, hc, hkind, hidle, he, if_true]
  · obtain rfl : c.peer = peer := Roster.peer_of_find? hc
    rw [handle_review hc hkind hidle hdecode]
    obtain ⟨c', hset, hpeer, hphase, houtbox, hok, herror⟩ := h.review_answer c credentials
    obtain ⟨hroom, hlack⟩ :=
      hbox.ring.answer hspare c.departures.acked (Doorman.admits h.doorman c.peer credentials).1
    refine ⟨c', ?_, hphase, fun hboth => ?_, fun hnot => ?_⟩
    · rw [channel?_of_set hc hpeer hset, if_pos rfl]
    · obtain ⟨hresult, hpending⟩ := hroom hboth
      rw [houtbox]
      exact ⟨hpending, hok _ hresult⟩
    · obtain ⟨⟨e, hresult⟩, hpending⟩ := hlack hnot
      rw [houtbox]
      exact ⟨hpending, e, herror e hresult⟩

end

def caller : Address := { ip := .v4 0x0A000002, port := 2 }

def acquainted : Host OpenDoor :=
  let hello : Packet :=
    { header :=
        { protocol := Packet.protocolId, count := 0, sequence := 0, ack := 0xFFFFFFFF,
          ackBits := 0xFFFFFFFF }
      messages := [] }
  ((Host.make {} {}).hear { source := caller, bytes := hello.encode.toOption.getD [] } 0).2

def request : Delivery :=
  { kind := .credentials, critical := true, fragment := 0,
    data := Credentials.encode { user := "u", password := "p" } }

theorem answered_or_failed_request :
    ∃ c', (acquainted.handle caller request).channel? caller = some c' ∧ c'.phase = .admitted ∧
      c'.outbox.pending = [noteMessage 0, verdictMessage 1 true] := by
  have hfresh :
      (acquainted.channel? caller).map (fun c => (c.outbox, c.phase)) = some ({}, .idle) := by
    decide +kernel
  obtain ⟨c, hc, hfresh⟩ := Option.map_eq_some_iff.mp hfresh
  obtain ⟨hbox, hidle⟩ := Prod.mk.inj hfresh
  have hreachable : c.outbox.Reachable := hbox ▸ .empty
  have hempty : c.outbox.length < 32 := by
    rw [hbox]
    decide
  have hdecode : Credentials.decode request.data = .ok { user := "u", password := "p" } := by
    decide +kernel
  obtain ⟨-, hanswered⟩ := answered_or_failed (d := request) hc hreachable hempty hidle rfl
  obtain ⟨c', hc', hphase, hroom, -⟩ := hanswered _ hdecode
  rw [hbox] at hroom
  have hboth : ∀ acked, ({} : Outbox).RoomForTwo acked := by
    intro acked
    refine ⟨by decide, ?_⟩
    rw [Outbox.reusableCount,
      List.countP_eq_length.mpr fun i _ => by simp [Outbox.slot, Slot.isReusable, Slot.isHeld]]
    decide
  exact ⟨c', hc', hphase, (hroom (hboth _)).1⟩

/-- With 30 messages pending for a peer, it is admitted and no verdict is queued. -/
theorem admitted_unanswered :
    let crowded :=
      (List.replicate 30 [1]).foldl (fun h data => (h.send caller .data false data).2) acquainted
    ∃ c c', crowded.channel? caller = some c ∧ c.phase = .idle ∧ c.outbox.length = 30 ∧
      (crowded.handle caller request).channel? caller = some c' ∧ c'.phase = .admitted ∧
      ∀ m ∈ c'.outbox.pending, m.kind ≠ .verdict := by
  intro crowded
  have hbefore :
      (crowded.channel? caller).map (fun c => (c.phase, c.outbox.length)) = some (.idle, 30) := by
    decide +kernel
  have hafter : ((crowded.handle caller request).channel? caller).map
      (fun c => (c.phase, decide (∀ m ∈ c.outbox.pending, m.kind ≠ .verdict))) =
        some (.admitted, true) := by
    decide +kernel
  obtain ⟨c, hc, hbefore⟩ := Option.map_eq_some_iff.mp hbefore
  obtain ⟨c', hc', hafter⟩ := Option.map_eq_some_iff.mp hafter
  obtain ⟨hidle, hlength⟩ := Prod.mk.inj hbefore
  obtain ⟨hadmitted, hnone⟩ := Prod.mk.inj hafter
  exact ⟨c, c', hc, hidle, hlength, hc', hadmitted, of_decide_eq_true hnone⟩

end Host

end Courier
