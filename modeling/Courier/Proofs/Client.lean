import Courier.Program.Client
import Courier.Proofs.Driven

/-!
# How a client hands over its texts

`Flushes` follows the texts one by one: each is queued as a whole, or never fits
and is passed over, or waits with all that come after it. So what is pending
afterwards are the messages of the texts that are gone and could be sent, in
their order, and the first text that is left could be sent once there is room
(`flush_in_order`).
-/

namespace Courier

namespace Guest

def withOutbox (g : Guest) (box : Outbox) : Guest :=
  { g with channel := { g.channel with outgoing := { g.channel.outgoing with outbox := box } } }

theorem send_eq (g : Guest) (kind : Kind) (critical : Bool) (payload : Bytes) :
    g.send kind critical payload =
      ((g.channel.outbox.enqueue kind critical payload g.channel.departures.acked).1,
        g.withOutbox
          (g.channel.outbox.enqueue kind critical payload g.channel.departures.acked).2) := rfl

end Guest

namespace Client

def payload (critical : Bool) (text : String) : Payload :=
  { kind := .data, critical, data := Utf8.encode text }

def Sendable (text : String) : Prop := (Utf8.encode text).length ≤ 2880

instance : DecidablePred Sendable := fun _ => inferInstanceAs (Decidable (_ ≤ _))

theorem sendable_iff {text : String} :
    Sendable text ↔ Outbox.messagesNeeded (Utf8.encode text).length ≤ 31 := by
  rw [Sendable, Outbox.messagesNeeded_eq]
  split
  · omega
  · omega

section
variable {critical : Bool} {acked : UInt32} {box after : Outbox} {texts left rest : List String}
  {text : String} {g g' : Guest}

-- ---------------------------------------------------------------------------
-- One text
-- ---------------------------------------------------------------------------

theorem flush_sent {id : UInt8} (hsend : g.send .data critical (Utf8.encode text) = (.ok id, g')) :
    flush critical g (text :: rest) = flush critical g' rest := by
  simp only [flush, hsend]

theorem flush_passed {needed available : Nat} (hmany : maxNeeded < needed)
    (hsend : g.send .data critical (Utf8.encode text) = (.error (.full needed available), g')) :
    (flush critical g (text :: rest)).2 = (flush critical g' rest).2 := by
  simp only [flush, hsend, if_pos hmany]

theorem flush_busy {e : OutboxError}
    (hfew : ∀ needed available, e = .full needed available → needed ≤ maxNeeded)
    (hsend : g.send .data critical (Utf8.encode text) = (.error e, g')) :
    flush critical g (text :: rest) = ([], text :: rest, g') := by
  cases e with
  | full needed available =>
    simp only [flush, hsend, if_neg (Nat.not_lt.mpr (hfew needed available rfl))]
  | exhausted => simp only [flush, hsend]

theorem send_fitting (h : g.channel.outbox.Ring)
    (hfits : g.channel.outbox.Fitting (payload critical text) g.channel.departures.acked) :
    ∃ next, g.send .data critical (Utf8.encode text) =
      (.ok g.channel.outbox.nextId, g.withOutbox next) ∧
      g.channel.outbox.Filled next (payload critical text) g.channel.departures.acked := by
  obtain ⟨next, hqueued, hfilled⟩ := h.enqueue_fitting hfits
  have hresult :
      g.channel.outbox.enqueue .data critical (Utf8.encode text) g.channel.departures.acked =
      (.ok g.channel.outbox.nextId, next) := hqueued
  exact ⟨next, by rw [g.send_eq, hresult], hfilled⟩

theorem send_refused
    (hnot : ¬ g.channel.outbox.Fitting (payload critical text) g.channel.departures.acked) :
    g.send .data critical (Utf8.encode text) =
      (.error (if Outbox.messagesNeeded (Utf8.encode text).length ≤ g.channel.outbox.room
        then .exhausted
        else .full (Outbox.messagesNeeded (Utf8.encode text).length) g.channel.outbox.room),
          g) := by
  have hresult :
      g.channel.outbox.enqueue .data critical (Utf8.encode text) g.channel.departures.acked = _ :=
    Outbox.enqueue_refused hnot
  rw [g.send_eq, hresult]
  rfl

-- ---------------------------------------------------------------------------
-- All texts
-- ---------------------------------------------------------------------------

/-- What becomes of an outbox, and which texts are left, when texts are queued in order. -/
inductive Flushes (critical : Bool) (acked : UInt32) :
    Outbox → List String → List String → Outbox → Prop
  | done (box : Outbox) : Flushes critical acked box [] [] box
  | queue {box next after : Outbox} {text : String} {rest left : List String}
    (hfits : box.Fitting (payload critical text) acked)
    (hfilled : box.Filled next (payload critical text) acked)
    (hrest : Flushes critical acked next rest left after) :
    Flushes critical acked box (text :: rest) left after
  | pass {box after : Outbox} {text : String} {rest left : List String} (hnever : ¬ Sendable text)
    (hrest : Flushes critical acked box rest left after) :
    Flushes critical acked box (text :: rest) left after
  | wait {box : Outbox} {text : String} {rest : List String} (hsendable : Sendable text)
    (hnot : ¬ box.Fitting (payload critical text) acked) :
    Flushes critical acked box (text :: rest) (text :: rest) box

theorem sendable_of_fitting (h : box.Fitting (payload critical text) acked) : Sendable text := by
  rw [sendable_iff]
  exact (Nat.le_add_left _ _).trans h.length_add_le

theorem Flushes.length_le (h : Flushes critical acked box texts left after) (hring : box.Ring)
    (hroom : box.length ≤ 31) : after.length ≤ 31 := by
  induction h with
  | done box => exact hroom
  | queue hfits hfilled _ ih =>
    refine ih hfilled.ring ?_
    rw [hfilled.length_eq hring]
    exact hfits.length_add_le
  | pass _ _ ih => exact ih hring hroom
  | wait _ _ => exact hroom

theorem Flushes.pending_eq (h : Flushes critical acked box texts left after) {id : UInt8} {n : Nat}
    (hid : box.nextId = id + UInt8.ofNat n) :
    ∃ gone, texts = gone ++ left ∧
      after.pending = box.pending ++ ((gone.filter Sendable).zipIdx n).flatMap fun (text, k) =>
        Outbox.pieces .data critical (id + UInt8.ofNat k) (Utf8.encode text) := by
  induction h generalizing n with
  | done box => exact ⟨[], rfl, (List.append_nil _).symm⟩
  | @queue box next after text rest left hfits hfilled _ ih =>
    have hnext : next.nextId = id + UInt8.ofNat (n + 1) := by
      rw [hfilled.nextId_eq, hid, UInt8.ofNat_add, ← UInt8.add_assoc]
      rfl
    obtain ⟨gone, hgone, hpending⟩ := ih hnext
    have hkept : (text :: gone).filter Sendable = text :: gone.filter Sendable :=
      List.filter_cons_of_pos (decide_eq_true (sendable_of_fitting hfits))
    refine ⟨text :: gone, congrArg (text :: ·) hgone, ?_⟩
    rw [hkept, hpending, hfilled.pending_eq, hid, List.zipIdx_cons, List.flatMap_cons,
      List.append_assoc]
    rfl
  | @pass box after text rest left hnever _ ih =>
    obtain ⟨gone, hgone, hpending⟩ := ih hid
    have hdropped : (text :: gone).filter Sendable = gone.filter Sendable :=
      List.filter_cons_of_neg (by simpa using hnever)
    exact ⟨text :: gone, congrArg (text :: ·) hgone, by rw [hdropped]; exact hpending⟩
  | wait _ _ => exact ⟨[], rfl, (List.append_nil _).symm⟩

/-- The first text that is left could be sent, but not now. -/
theorem Flushes.waiting (h : Flushes critical acked box texts left after)
    (hleft : left = text :: rest) :
    Sendable text ∧ ¬ after.Fitting (payload critical text) acked := by
  induction h with
  | done box => cases hleft
  | queue _ _ _ ih => exact ih hleft
  | pass _ _ ih => exact ih hleft
  | wait hsendable hnot =>
    cases hleft
    exact ⟨hsendable, hnot⟩

theorem flushes_flush (critical : Bool) (texts : List String) (g : Guest)
    (h : g.channel.outbox.Ring) (hroom : g.channel.outbox.length ≤ 31) :
    ∃ after, (flush critical g texts).2.2 = g.withOutbox after ∧
      Flushes critical g.channel.departures.acked g.channel.outbox texts
        (flush critical g texts).2.1 after := by
  induction texts generalizing g with
  | nil => exact ⟨_, rfl, .done _⟩
  | cons text rest ih =>
    by_cases hfits : g.channel.outbox.Fitting (payload critical text) g.channel.departures.acked
    · obtain ⟨next, hsend, hfilled⟩ := send_fitting h hfits
      have hnext : next.length ≤ 31 := hfilled.length_eq h ▸ hfits.length_add_le
      obtain ⟨after, hafter, hflushes⟩ := ih (g.withOutbox next) hfilled.ring hnext
      rw [flush_sent hsend]
      exact ⟨after, hafter, .queue hfits hfilled hflushes⟩
    · have hsend := send_refused hfits
      by_cases hsendable : Sendable text
      · rw [flush_busy ?_ hsend]
        · exact ⟨_, rfl, .wait hsendable hfits⟩
        · intro needed available he
          split at he
          · cases he
          · cases he
            exact sendable_iff.mp hsendable
      · have hmany : 31 < Outbox.messagesNeeded (Utf8.encode text).length :=
          Nat.not_le.mp fun hfew => hsendable (sendable_iff.mpr hfew)
        have hfull : ¬ Outbox.messagesNeeded (Utf8.encode text).length ≤ g.channel.outbox.room := by
          rw [Outbox.room_of_le hroom]
          omega
        obtain ⟨after, hafter, hflushes⟩ := ih g h hroom
        rw [if_neg hfull] at hsend
        rw [flush_passed hmany hsend]
        exact ⟨after, hafter, .pass hsendable hflushes⟩

/-- Texts are queued in order. Those that are gone make up the beginning of the
list, and those of them that have at most 2880 bytes are pending behind what was
pending before, each as all its messages under the next id. If texts are left,
the first of them is not longer than that, and trying to send it now fails and
changes nothing. -/
theorem flush_in_order {σ : Type} [Transport σ] (h : g.Reachable σ)
    (hroom : g.channel.outbox.length ≤ 31) (critical : Bool) (texts : List String) :
    let box := g.channel.outbox
    let left := (flush critical g texts).2.1
    let after := (flush critical g texts).2.2
    after = g.withOutbox after.channel.outbox ∧ after.channel.outbox.length ≤ 31 ∧
      (∃ gone groups, texts = gone ++ left ∧
          after.channel.outbox.pending = box.pending ++ groups.flatten ∧
          List.Forall₂
            (fun (text, k) ms => (payload critical text).Composed (box.nextId + UInt8.ofNat k) ms)
          (gone.filter fun text => decide ((Utf8.encode text).length ≤ 2880)).zipIdx groups) ∧
      ∀ text rest, left = text :: rest → (Utf8.encode text).length ≤ 2880 ∧
        ∃ e, after.send .data critical (Utf8.encode text) = (.error e, after) := by
  intro box left after
  have hring : box.Ring := h.driven.outbox.ring
  obtain ⟨filled, hafter, hflushes⟩ := flushes_flush critical texts g hring hroom
  have hbox : after.channel.outbox = filled := congrArg (·.channel.outbox) hafter
  have hacked : after.channel.departures.acked = g.channel.departures.acked :=
    congrArg (·.channel.departures.acked) hafter
  obtain ⟨gone, hgone, hpending⟩ := hflushes.pending_eq (n := 0) (UInt8.add_zero box.nextId).symm
  let groups := (gone.filter Sendable).zipIdx.map fun (text, k) =>
    Outbox.pieces .data critical (box.nextId + UInt8.ofNat k) (Utf8.encode text)
  refine ⟨?_, ?_, ⟨gone, groups, hgone, ?_, ?_⟩, ?_⟩
  · rw [hbox]
    exact hafter
  · rw [hbox]
    exact hflushes.length_le hring hroom
  · rw [hbox, hpending, List.flatMap_def]
  · refine List.forall₂_map_right_iff.mpr (List.forall₂_same.mpr fun (text, k) hk => ?_)
    have hmem : text ∈ gone.filter Sendable := List.fst_mem_of_mem_zipIdx hk
    exact (payload critical text).composed_pieces _
      (sendable_iff.mp (of_decide_eq_true (List.mem_filter.mp hmem).2))
  · intro text rest hleft
    obtain ⟨hsendable, hnot⟩ := hflushes.waiting hleft
    rw [← hbox, ← hacked] at hnot
    exact ⟨hsendable, _, send_refused hnot⟩

def lengthy (n : Nat) : String := String.ofList (List.replicate n 'a')

theorem length_encode_lengthy (n : Nat) : (Utf8.encode (lengthy n)).length = n := by
  have hone (c : Char) (hc : c ∈ List.replicate n 'a') : (String.utf8EncodeChar c).length = 1 := by
    rw [List.eq_of_mem_replicate hc]
    rfl
  rw [Utf8.encode, lengthy, String.toList_ofList, List.length_flatMap, List.map_congr_left hone]
  simp

theorem send_full
    (hmany : g.channel.outbox.room < Outbox.messagesNeeded (Utf8.encode text).length) :
    g.send .data critical (Utf8.encode text) =
      (.error (.full (Outbox.messagesNeeded (Utf8.encode text).length) g.channel.outbox.room),
        g) := by
  rw [send_refused fun hfits => Nat.not_le.mpr hmany hfits.1, if_neg (Nat.not_le.mpr hmany)]

end

def stranger : Guest where
  config := {}
  credentials := { user := "anonymous", password := "1234" }
  channel := .fresh { ip := .v4 0x0A000001, port := 4000 } 0

/-- Of three texts the first is too long and passed over, the second is queued,
and the third waits because it needs every slot. -/
theorem flush_in_order_mixed :
    let g := stranger.use (.send .data false [1])
    let texts := [lengthy 2881, "hi", lengthy 2880]
    g.Reachable Script ∧ g.channel.outbox.length ≤ 31 ∧ (flush true g texts).2.1 = [lengthy 2880] ∧
      (flush true g texts).2.2.channel.outbox.pending.map (fun m => (m.kind, m.data)) =
        [(.data, [1]), (.data, [104, 105])] ∧
      ∃ e, (flush true g texts).2.2.send .data true (Utf8.encode (lengthy 2880)) =
        (.error e, (flush true g texts).2.2) := by
  intro g
  have hreachable : g.Reachable Script :=
    .use _ (.make (rfl : Guest.make { ip := .v4 0x0A000001, port := 4000 } {} 0 = .ok stranger))
  have hroom : g.channel.outbox.length ≤ 31 := by decide +kernel
  have hhi : Utf8.encode "hi" = [104, 105] := by decide +kernel
  let second :=
    g.withOutbox (g.channel.outbox.enqueue .data true [104, 105] g.channel.departures.acked).2
  have hsent : g.send .data true (Utf8.encode "hi") = (.ok 1, second) := by
    rw [hhi, g.send_eq]
    exact Prod.ext (by decide +kernel) rfl
  -- only the lengths of the long texts matter, and they are too long to be computed with
  generalize hlong : lengthy 2881 = long, hlater : lengthy 2880 = later
  have hlong : (Utf8.encode long).length = 2881 := hlong ▸ length_encode_lengthy _
  have hlater : (Utf8.encode later).length = 2880 := hlater ▸ length_encode_lengthy _
  intro texts
  have hpassed : g.send .data true (Utf8.encode long) = (.error (.full 32 30), g) := by
    rw [send_full (by rw [hlong]; decide +kernel), hlong, Outbox.room_of_le hroom]
    rfl
  have hbusy : second.send .data true (Utf8.encode later) = (.error (.full 31 29), second) := by
    have hlength : second.channel.outbox.length = 2 := by decide +kernel
    rw [send_full (by rw [hlater]; decide +kernel), hlater, Outbox.room_of_le (by omega), hlength]
    rfl
  have hleft : (flush true g texts).2.1 = [later] := by
    rw [flush_passed (by decide) hpassed, flush_sent hsent, flush_busy ?_ hbusy]
    rintro needed available ⟨⟩
    decide
  obtain ⟨-, -, ⟨gone, groups, hgone, hpending, hgroups⟩, hwaits⟩ :=
    flush_in_order hreachable hroom true texts
  have hgone : [long, "hi"] = gone :=
    List.append_cancel_right (hgone.trans (congrArg (gone ++ ·) hleft))
  have hqueued : gone.filter (fun text => decide ((Utf8.encode text).length ≤ 2880)) = ["hi"] := by
    simp [← hgone, hlong, hhi]
  rw [hqueued] at hgroups
  obtain ⟨ms, hms, rfl⟩ : ∃ ms, (payload true "hi").Composed 1 ms ∧ groups = [ms] := by
    cases hgroups with
    | cons hms hrest =>
      cases hrest
      exact ⟨_, hms, rfl⟩
  have hbefore : g.channel.outbox.pending.map (fun m => (m.kind, m.data)) = [(.data, [1])] := by
    decide +kernel
  have hnew : ms.map (fun m => (m.kind, m.data)) = [(.data, [104, 105])] := by
    rw [← hhi]
    exact hms.whole (by rw [payload, hhi]; decide)
  refine ⟨hreachable, hroom, hleft, ?_, (hwaits _ _ hleft).2⟩
  rw [hpending, List.flatten_singleton, List.map_append, hbefore, hnew]
  rfl

end Client

end Courier
