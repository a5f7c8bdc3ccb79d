import Courier.Proofs.Chronicle.Losses
import Courier.Proofs.Outgoing.Order

/-!
# In which order the messages of a lost packet come back

What a packet loses goes back to the front of the outbox in the order of its
slots. Every step leaves the order of the slots in flight alone
(`Intact.shifted_step`), so this is the order in which the packet took its
messages, unless one of them was moved to another slot in the meantime: to make
room for a new message, or for what another packet lost (`requeued_in_order`).
-/

namespace Courier

open Outbox (Shifted Trails)

theorem Outbox.start_pushAll (acked : UInt32) (box : Outbox) (ms : List Message) :
    (pushAll acked box ms).2.start = box.start := by
  induction ms generalizing box with
  | nil => rfl
  | cons m rest ih =>
    unfold pushAll
    split
    · rfl
    next hpush =>
      obtain ⟨-, i, -, rfl⟩ := push_ok_iff.mp hpush
      exact ih _

theorem Outgoing.shifted_settle {o : Outgoing} (h : o.outbox.Ring) (next acked : UInt32) :
    Shifted o.outbox (o.settle next acked).2.2.outbox := by
  rcases fate_cases o.flights (Window.index next) acked with ⟨hfate, -⟩ | ⟨hfate, -⟩ | ⟨hfate, -⟩
  · rw [(settle_unsent hfate).1]
    exact .of_start_eq rfl
  · obtain ⟨hsettle, -, hsettled⟩ := settle_acknowledged hfate
    rw [hsettle, hsettled]
    exact .of_start_eq (released_carried h _).start_eq
  · obtain ⟨⟨-, hsettle⟩, hlost, -⟩ := settle_lost hfate
    rw [hsettle, hlost]
    -- freeing the other messages moves nothing
    have hreleased := released_plain h (Window.index next)
    have hshift := (requeued_vital h (Window.index next)).shifted
    rw [Shifted, ← hreleased.start_eq, ← hreleased.length_eq] at hshift
    exact hshift

namespace Chronicle

section
variable {c : Chronicle} {packet : UInt8}

/-- The critical messages in flight in `packet` after a step stood there before it. -/
def Unmoved (packet : UInt8) (c : Chronicle) (a : Action) : Prop :=
  ∀ p, ((c.step a).outbox.slot p).isVital packet = true → c.outbox.slot p = (c.step a).outbox.slot p

instance (packet : UInt8) (c : Chronicle) (a : Action) : Decidable (c.Unmoved packet a) :=
  inferInstanceAs (Decidable (∀ _, _))

theorem Intact.shifted_step (hi : c.Intact) (a : Action) : Shifted c.outbox (c.step a).outbox := by
  cases a with
  | settle =>
    show Shifted _ c.settle.channel.outgoing.outbox
    rw [outgoing_settle]
    exact Outgoing.shifted_settle hi.held.ring _ _
  | enqueue p =>
    rcases hi.enqueue_cases p with hsame | ⟨hqueue, -⟩
    · rw [Chronicle.step, hsame]
      exact .of_start_eq rfl
    · rw [Chronicle.step, hqueue]
      exact .of_start_eq (Outbox.start_pushAll ..)
  | build now => exact (hi.drained now).shifted
  | receive r size now =>
    obtain ⟨places, hconfirming⟩ := hi.confirming r size now
    exact .of_start_eq hconfirming.released.start_eq
  | takeNotices => exact .of_start_eq rfl

/-- Messages that are not moved stay in order over a whole run. -/
theorem Reachable.trails_run (h : Reachable Orderly c) {as : List Action}
    (hlegal : c.Legal Orderly as) (hunmoved : c.Legal (Unmoved packet) as) :
    Trails packet c.outbox (as.foldl Chronicle.step c).outbox := by
  induction as generalizing c with
  | nil => exact .refl packet c.outbox
  | cons a rest ih =>
    obtain ⟨hrule, hlegal⟩ := hlegal
    obtain ⟨hstill, hunmoved⟩ := hunmoved
    have hnext := h.step hrule
    have hone := (h.intact.shifted_step a).trails h.intact.held.ring hnext.intact.held.ring hstill
    exact hone.trans (ih hnext hlegal hunmoved)

theorem sent_prefix_run (c : Chronicle) (as : List Action) :
    c.sent <+: (as.foldl Chronicle.step c).sent := by
  induction as generalizing c with
  | nil => exact List.prefix_rfl
  | cons a rest ih => exact (c.sent_prefix_step a).trans (ih (c.step a))

theorem Intact.messagesAt_build (hi : c.Intact) (hsettled : c.settled = true) (now : Time) :
    let o := (c.build now).channel.outgoing
    o.outbox.messagesAt (o.vital (Window.index c.channel.departures.upcoming)) =
      (c.dispatch now).packet.messages.filter (·.critical) := by
  refine Outgoing.messagesAt_vital_of_drained hi.held.ring (hi.drained now) fun p => ?_
  refine Bool.eq_false_iff.mpr fun hvital => ?_
  obtain ⟨m, hs, hc⟩ := Slot.isVital_iff.mp hvital
  obtain ⟨-, hsent, -⟩ := hi.held.held hs hc
  rw [Window.has_tag, hi.clear hsettled] at hsent
  cases hsent

/-- The messages that return, oldest slot first. -/
def comeback (c : Chronicle) : List Message :=
  c.outbox.messagesAt (c.channel.outgoing.vital (Window.index c.channel.departures.upcoming))

theorem map_fst_returning (c : Chronicle) : c.returning.map (·.1) = c.comeback := by
  rw [returning, Manifest.aboard, List.map_filterMap]
  simp only [Option.map_map, Function.comp_def, Option.map_id']
  rfl

theorem Intact.settle_unacknowledged (hi : c.Intact)
    (hsent : Window.has c.channel.outgoing.flights.sent c.channel.departures.upcoming = true)
    (hacked : Window.has c.channel.departures.acked c.channel.departures.upcoming = false) :
    c.settle.outbox.pending = c.comeback ++ c.outbox.pending ∧
      ∃ (critical : Bool) (dropped : List Message),
        c.verdicts = .lost (c.channel.departures.upcoming - 32) critical ::
        c.comeback.map (.requeued ·.envelope) ++ dropped.map (.dropped ·.envelope) := by
  have hring : c.channel.outgoing.outbox.Ring := hi.held.ring
  obtain ⟨⟨hnotices, hsettle⟩, hlost, -⟩ := Outgoing.settle_lost (Outgoing.fate_lost hsent hacked)
  rw [hlost] at hnotices hsettle
  refine ⟨?_, _, _, hnotices⟩
  rw [outbox, outgoing_settle, hsettle]
  exact Outgoing.pending_of_lost hring _

/-- What comes back of a packet are its critical messages that were not delivered. -/
theorem Reachable.comeback_of_lost (h : Reachable Orderly c) {k : Nat} {s : Dispatch}
    (hs : c.sent[k]? = some s) (hlength : c.sent.length = k + 32) (hsettled : c.settled = false) :
    ∃ gone : Multiset Message, (c.comeback : Multiset Message) + gone =
      s.packet.messages.filter (·.critical) ∧
      ∀ m ∈ gone, .delivered m.envelope ∈ c.notices := by
  obtain ⟨hk, rfl⟩ := List.getElem?_eq_some_iff.mp hs
  obtain ⟨gone, heq, hgone⟩ := h.stows k hk (.inr ⟨hlength, hsettled⟩)
  have htag : c.sent[k].position = (Window.index c.channel.departures.upcoming).toUInt8 := by
    apply UInt8.toNat_inj.mp
    rw [h.reports.toNat_position hk, h.reports.toNat_upcoming, hlength, Nat.add_mod_right]
  rw [htag, h.intact.stowed_returning] at heq
  refine ⟨gone.map (·.1), ?_, fun m hm => ?_⟩
  · have hmessages : c.sent[k].cargo.map (·.1) = c.sent[k].packet.messages :=
      List.map_fst_zip (h.labelled.length_numbers _ (List.getElem_mem hk)).ge
    have hfilter : (c.sent[k].cargo.filter (·.1.critical)).map (·.1) =
        c.sent[k].packet.messages.filter (·.critical) := by
      rw [← hmessages, List.filter_map]
      rfl
    rw [← map_fst_returning, ← Multiset.map_coe, ← Multiset.map_add, heq, Multiset.map_coe, hfilter]
  · obtain ⟨x, hx, rfl⟩ := Multiset.mem_map.mp hm
    have hconfirmed : x.1.envelope ∈ c.confirmed.map (·.2) := List.mem_map_of_mem (hgone x hx)
    rw [h.reported, deliveredOf, List.mem_filterMap] at hconfirmed
    obtain ⟨notice, hnotice, hdelivered⟩ := hconfirmed
    cases notice with
    | delivered e =>
      obtain rfl := Option.some.inj hdelivered
      exact hnotice
    | _ => cases hdelivered

/-- A packet is built, and one window later it is found to be lost. What comes back
are its critical messages that were not delivered, in front of all that was
pending. They come in the order in which the packet carried them if none of them
was moved to another slot in between. -/
theorem requeued_in_order {start : Chronicle} (h : Reachable Orderly start)
    (hbefore : start.settled = true) (now : Time) {as : List Action}
    (hlegal : (start.build now).Legal Orderly as) :
    let c := as.foldl Chronicle.step (start.build now)
    let s := start.dispatch now
    c.sent.length = start.sent.length + 32 → c.settled = false →
      Window.has c.channel.departures.acked c.channel.departures.upcoming = false →
      c.sent[start.sent.length]? = some s ∧ ∃ (critical : Bool) (back dropped : List Message),
        c.settle.notices = c.notices ++
          (.lost s.sequence critical :: back.map (.requeued ·.envelope) ++
          dropped.map (.dropped ·.envelope)) ∧
        c.settle.outbox.pending = back ++ c.outbox.pending ∧
        (∃ gone : Multiset Message, (back : Multiset Message) + gone =
          s.packet.messages.filter (·.critical) ∧
          ∀ m ∈ gone, .delivered m.envelope ∈ c.notices) ∧
        ((start.build now).Legal (Unmoved s.position) as → back.Sublist s.packet.messages) := by
  intro c s hlength hopen hacked
  have hbuilt : Reachable Orderly (start.build now) := h.step (a := .build now) hbefore
  have hlast : Reachable Orderly c := hbuilt.run hlegal
  have hs : c.sent[start.sent.length]? = some s := by
    obtain ⟨more, hmore⟩ := (start.build now).sent_prefix_run as
    rw [sent_build] at hmore
    rw [show c.sent = _ from hmore.symm]
    simp [s]
  have hsent : Window.has c.channel.outgoing.flights.sent c.channel.departures.upcoming = true := by
    refine (hlast.flown.sent_iff _).mpr ⟨start.sent.length, by omega, .inr ⟨hlength, hopen⟩, ?_⟩
    rw [hlast.reports.upcoming_eq, toNat_number, hlength, Nat.add_mod_right]
  obtain ⟨hpending, critical, dropped, hverdicts⟩ := hlast.intact.settle_unacknowledged hsent hacked
  refine ⟨hs, critical, c.comeback, dropped, ?_, hpending, hlast.comeback_of_lost hs hlength hopen,
    fun hunmoved => ?_⟩
  · rw [notices_settle, hverdicts, hlast.reports.upcoming_sub hs hlength]
  · have hposition : Window.index c.channel.departures.upcoming =
        Window.index start.channel.departures.upcoming := by
      apply UInt32.toNat_inj.mp
      rw [Window.toNat_index, Window.toNat_index, hlast.reports.upcoming_eq, h.reports.upcoming_eq,
        toNat_number, toNat_number, hlength, Nat.add_mod_right]
    have htrails := hbuilt.trails_run hlegal hunmoved
    have hsub : c.comeback.Sublist ((start.build now).outbox.messagesAt
        ((start.build now).channel.outgoing.vital
          (Window.index start.channel.departures.upcoming))) := by
      rw [comeback, hposition]
      exact Outgoing.vital_sublist hbuilt.intact.held.ring hlast.intact.held.ring htrails
    rw [show (start.build now).outbox.messagesAt _ = _ from h.intact.messagesAt_build hbefore now]
      at hsub
    exact hsub.trans List.filter_sublist

end

theorem requeued_in_order_alone :
    let start :=
      [Action.enqueue ⟨.data, true, [1]⟩, .enqueue ⟨.data, true, [2]⟩, .settle].foldl step
      (start { ip := .v4 0, port := Packet.defaultPort } 0)
    let c := (List.replicate 31 [Action.settle, .build 0]).flatten.foldl step (start.build 0)
    (start.dispatch 0).packet.messages = [⟨.data, true, 0, 0, [1]⟩, ⟨.data, true, 1, 0, [2]⟩] ∧
      ∃ back gone : List Message, c.settle.outbox.pending = back ++ c.outbox.pending ∧
        back.Sublist (start.dispatch 0).packet.messages ∧
        (back ++ gone).Perm (start.dispatch 0).packet.messages := by
  intro start c
  have h : Reachable Orderly start := .run (.start _ _) (by decide +kernel)
  have hmessages : (start.dispatch 0).packet.messages =
      [⟨.data, true, 0, 0, [1]⟩, ⟨.data, true, 1, 0, [2]⟩] := by decide +kernel
  have hlegal :
      (start.build 0).Legal Orderly (List.replicate 31 [Action.settle, .build 0]).flatten := by
    decide +kernel
  obtain ⟨-, -, back, -, -, hpending, ⟨gone, hgone, -⟩, hsublist⟩ :=
    requeued_in_order h rfl 0 hlegal (by decide +kernel) (by decide +kernel) (by decide +kernel)
  refine ⟨hmessages, back, gone.toList, hpending, hsublist (by decide +kernel), ?_⟩
  rw [← Multiset.coe_eq_coe, ← Multiset.coe_add, Multiset.coe_toList, hgone, hmessages]
  rfl

def shuffled : Chronicle :=
  ([Action.enqueue ⟨.data, true, [0]⟩, .settle, .build 0, .enqueue ⟨.data, true, [1]⟩,
      .enqueue ⟨.data, true, [2]⟩] ++
      (List.replicate 32 [Action.settle, .build 0]).flatten).foldl step
    (start { ip := .v4 0, port := Packet.defaultPort } 0)

/-- The two come back in the opposite order. -/
theorem requeued_out_of_order :
    Reachable Orderly shuffled ∧
      shuffled.sent[1]?.map (·.packet.messages) =
        some [⟨.data, true, 1, 0, [1]⟩, ⟨.data, true, 2, 0, [2]⟩] ∧
      shuffled.settle.notices = shuffled.notices ++
        [.lost 1 true, .requeued ⟨.data, true, 2, 0, 1⟩, .requeued ⟨.data, true, 1, 0, 1⟩] ∧
      shuffled.settle.outbox.pending = [⟨.data, true, 2, 0, [2]⟩, ⟨.data, true, 1, 0, [1]⟩] := by
  have h : Reachable Orderly shuffled := .run (.start _ _) (by decide +kernel)
  refine ⟨h, ?_⟩
  decide +kernel

end Chronicle

end Courier
