import Mathlib.Data.List.Induction
import Mathlib.Data.List.Perm.Subperm
import Courier.Proofs.Departures

/-!
# One round-trip sample for each packet

The send times are kept at the 32 positions of the window, and a peer may report
anything about them. Packets are numbered here without wrapping around, so that
each send time and each sample belongs to one packet (`Timesheet.Kept`).
`sampled_once`: the estimate is made of samples of different packets, each taken
when a report newly acknowledged its packet.
-/

namespace Courier.Departures

/-- A packet that gave a sample, when it was sent and when the sample was taken. -/
structure Sample where
  packet : Nat
  sent : Time
  taken : Time
  deriving DecidableEq, Repr

def Sample.millis (s : Sample) : Float32 := (s.taken.since s.sent).toSeconds * 1000.0

inductive Event where
  | sent (now : Time)
  | report (ack bits : UInt32) (now : Time)

def gains (d d' : Departures) (position : Nat) : Bool :=
  d'.isAcked (UInt32.ofNat position) && !d.isAcked (UInt32.ofNat position)

/-- The one of the last 32 of so many packets that has a position. -/
def owner? (count position : Nat) : Option Nat :=
  if position < count then some (count - 1 - (count - 1 - position) % 32) else none

structure Timesheet where
  record : Departures := {}
  /-- When each packet was sent. The number of a packet is its place. -/
  sent : List Time := []
  samples : List Sample := []

namespace Timesheet

def sampled (t : Timesheet) (k : Nat) : Bool := k ∈ t.samples.map (·.packet)

/-- The sample that a position gives to a report after which the record is `after`:
its packet is newly acknowledged and gave none before. -/
def sampleAt? (t : Timesheet) (after : Departures) (now : Time) (position : Nat) : Option Sample :=
  (owner? t.sent.length position).bind fun k =>
    if t.record.gains after position && !t.sampled k then
      t.sent[k]?.map fun sent => { packet := k, sent, taken := now }
    else none

def fresh (t : Timesheet) (after : Departures) (now : Time) : List Sample :=
  (List.range 32).filterMap (t.sampleAt? after now)

def add (t : Timesheet) : Event → Timesheet
  | .sent now => { t with record := t.record.advance now, sent := t.sent ++ [now] }
  | .report ack bits now =>
    let record := (t.record.acknowledge ack bits now).2
    { t with record, samples := t.samples ++ t.fresh record now }

def ofEvents (events : List Event) : Timesheet := events.foldl add {}

end Timesheet

-- ---------------------------------------------------------------------------
-- What a report changes
-- ---------------------------------------------------------------------------

def waiting (d : Departures) (position : Nat) : Option Time :=
  d.sentAt[Window.slot (UInt32.ofNat position)]

def measure (now : Time) (estimate : RoundTrip) (times : List Time) : RoundTrip :=
  times.foldl (fun r sent => r.sample ((now.since sent).toSeconds * 1000.0)) estimate

section
variable (d : Departures) (now : Time) {p q : Nat}

theorem waiting_set {d d' : Departures} {s : UInt32} {x : Option Time}
    (hset : d'.sentAt = d.sentAt.set (Window.slot s) x (Window.slot s).isLt) (hq : q < 32) :
    d'.waiting q = if s.toNat % 32 = q then x else d.waiting q := by
  simp only [waiting, hset, Fin.getElem_fin, Vector.getElem_set, Window.slot, UInt32.toNat_ofNat']
  congr 2
  omega

theorem waiting_advance (hq : q < 32) : (d.advance now).waiting q =
    if d.upcoming.toNat % 32 = q then some now else d.waiting q := waiting_set rfl hq

theorem waiting_sampleAt (hp : p < 32) (hq : q < 32) :
    (sampleAt now d (UInt32.ofNat p)).waiting q = if p = q then none else d.waiting q := by
  have hsame : (UInt32.ofNat p).toNat % 32 = p := by
    rw [UInt32.toNat_ofNat']
    omega
  simp only [sampleAt]
  split
  next hnone =>
    split
    next heq => exact heq ▸ hnone
    · rfl
  · rw [waiting_set rfl hq, hsame]

theorem roundTrip_sampleAt : (sampleAt now d (UInt32.ofNat p)).roundTrip =
    measure now d.roundTrip (d.waiting p).toList := by
  simp only [sampleAt, waiting]
  split
  next hnone => rw [hnone]; rfl
  next sent hsent => rw [hsent]; rfl

theorem foldl_sampleAt_positions {positions : List Nat} (hlt : ∀ p ∈ positions, p < 32)
    (hnodup : positions.Nodup) :
    ((positions.map UInt32.ofNat).foldl (sampleAt now) d).roundTrip =
        measure now d.roundTrip (positions.filterMap d.waiting) ∧
      ∀ q < 32, ((positions.map UInt32.ofNat).foldl (sampleAt now) d).waiting q =
        if q ∈ positions then none else d.waiting q := by
  induction positions generalizing d with
  | nil => exact ⟨rfl, fun q _ => rfl⟩
  | cons p rest ih =>
    obtain ⟨hp, hrest⟩ := List.forall_mem_cons.mp hlt
    obtain ⟨hnew, hnodup⟩ := List.nodup_cons.mp hnodup
    obtain ⟨hestimate, hwaiting⟩ := ih (sampleAt now d (UInt32.ofNat p)) hrest hnodup
    have hsame :
        rest.filterMap (sampleAt now d (UInt32.ofNat p)).waiting = rest.filterMap d.waiting := by
      refine List.filterMap_congr fun q hq => ?_
      rw [waiting_sampleAt d now hp (hrest q hq), if_neg]
      rintro rfl
      exact hnew hq
    refine ⟨?_, fun q hq => ?_⟩
    · rw [List.map_cons, List.foldl_cons, hestimate, hsame, roundTrip_sampleAt, List.filterMap_cons]
      cases d.waiting p with
      | none => rfl
      | some sent => rfl
    · rw [List.map_cons, List.foldl_cons, hwaiting q hq, waiting_sampleAt d now hp hq]
      by_cases hpq : p = q
      · simp [hpq]
      · simp [hpq, Ne.symm hpq]

theorem gains_congr {d₁ d₂ : Departures} (h : d₁.acked = d₂.acked) : d.gains d₁ = d.gains d₂ := by
  funext position
  simp only [gains, isAcked, h]

/-- A report is ignored, or clears the window, or replaces it and takes samples. -/
theorem acknowledge_eq (ack bits : UInt32) :
    (d.acknowledge ack bits now).2 = d ∨
      (d.acknowledge ack bits now).2 = { d with lastAck := some ack, acked := 0 } ∨
      (d.acknowledge ack bits now).2 =
        (((List.range 32).filter (d.gains { d with acked := d.reported ack bits })).map
          UInt32.ofNat).foldl
          (sampleAt now) { d with lastAck := some ack, acked := d.reported ack bits } := by
  have hgains : Window.indices.filter (Window.has (d.reported ack bits &&& ~~~d.acked)) =
      ((List.range 32).filter (d.gains { d with acked := d.reported ack bits })).map
        UInt32.ofNat := by
    rw [Window.indices, List.filter_map]
    refine congrArg (List.map _) (List.filter_congr fun q _ => ?_)
    rw [Function.comp_apply, Window.has_and, Window.has_not, gains, isAcked, isAcked]
  rcases d.acknowledge_outcomes ack bits now with ⟨-, h⟩ | ⟨-, h⟩ | ⟨-, ⟨-, h⟩ | ⟨-, h⟩⟩
  · exact .inl (by rw [h])
  · exact .inl (by rw [h])
  · exact .inr (.inl (by rw [h]))
  · rw [h, hgains]
    exact .inr (.inr rfl)

theorem acknowledge_samples (ack bits : UInt32) :
    (d.acknowledge ack bits now).2.roundTrip = measure now d.roundTrip
        (((List.range 32).filter (d.gains (d.acknowledge ack bits now).2)).filterMap d.waiting) ∧
      ∀ q < 32, (d.acknowledge ack bits now).2.waiting q =
        if d.gains (d.acknowledge ack bits now).2 q then none else d.waiting q := by
  rcases d.acknowledge_eq now ack bits with heq | heq | heq
  · have hnone : d.gains d = fun _ => false := by
      funext position
      exact Bool.and_not_self _
    rw [heq, hnone, List.filter_false]
    exact ⟨rfl, fun q _ => rfl⟩
  · have hnone : d.gains { d with lastAck := some ack, acked := 0 } = fun _ => false := by
      funext position
      rw [gains, isAcked, Window.has_zero, Bool.false_and]
    rw [heq, hnone, List.filter_false]
    exact ⟨rfl, fun q _ => rfl⟩
  · have hacked := (foldl_sampleAt now
      (((List.range 32).filter (d.gains { d with acked := d.reported ack bits })).map UInt32.ofNat)
      { d with lastAck := some ack, acked := d.reported ack bits }).2.1
    rw [heq, d.gains_congr hacked]
    have hlt :
        ∀ p ∈ (List.range 32).filter (d.gains { d with acked := d.reported ack bits }), p < 32 :=
      fun p hp => List.mem_range.mp (List.mem_filter.mp hp).1
    obtain ⟨hestimate, hwaiting⟩ := foldl_sampleAt_positions
      { d with lastAck := some ack, acked := d.reported ack bits } now hlt
      (List.nodup_range.filter _)
    refine ⟨hestimate, fun q hq => (hwaiting q hq).trans ?_⟩
    simp only [List.mem_filter, List.mem_range, hq, true_and]
    rfl

end

-- ---------------------------------------------------------------------------
-- Which packet a position belongs to
-- ---------------------------------------------------------------------------

theorem owner?_eq_some_iff {count p k : Nat} (hp : p < 32) :
    owner? count p = some k ↔ k < count ∧ count ≤ k + 32 ∧ k % 32 = p := by
  simp only [owner?, Option.ite_none_right_eq_some, Option.some.injEq]
  omega

theorem owner?_succ {p : Nat} (hp : p < 32) (count : Nat) :
    owner? (count + 1) p = if count % 32 = p then some count else owner? count p := by
  ext k
  rw [owner?_eq_some_iff hp]
  split
  · simp only [Option.some.injEq]
    omega
  · rw [owner?_eq_some_iff hp]
    omega

namespace Timesheet

def pending? (t : Timesheet) (position : Nat) : Option Time :=
  (owner? t.sent.length position).bind fun k => if t.sampled k then none else t.sent[k]?

/-- The record keeps the send times of the last 32 packets that gave no sample,
and its estimate is made of the samples. -/
structure Kept (t : Timesheet) : Prop where
  upcoming_eq : t.record.upcoming = UInt32.ofNat t.sent.length
  waiting_eq : ∀ p < 32, t.record.waiting p = t.pending? p
  estimate_eq : t.record.roundTrip = t.samples.foldl (fun r s => r.sample s.millis) {}
  once : (t.samples.map (·.packet)).Nodup
  measured : ∀ s ∈ t.samples, t.sent[s.packet]? = some s.sent

section
variable {t : Timesheet} {after : Departures} {now : Time} {position : Nat} {s : Sample}

theorem sampled_iff {k : Nat} : t.sampled k = true ↔ ∃ s ∈ t.samples, s.packet = k := by
  simp [sampled]

theorem sampleAt?_eq_some_iff (hp : position < 32) : t.sampleAt? after now position = some s ↔
    (s.packet < t.sent.length ∧ t.sent.length ≤ s.packet + 32 ∧ s.packet % 32 = position) ∧
      (t.record.gains after position = true ∧ t.sampled s.packet = false) ∧
      t.sent[s.packet]? = some s.sent ∧ s.taken = now := by
  simp only [sampleAt?, Option.bind_eq_some_iff, owner?_eq_some_iff hp,
    Option.ite_none_right_eq_some, Option.map_eq_some_iff, Bool.and_eq_true, Bool.not_eq_true']
  obtain ⟨packet, sent, taken⟩ := s
  constructor
  · rintro ⟨k, howner, hnew, time, hsent, heq⟩
    obtain ⟨rfl, rfl, rfl⟩ := Sample.mk.inj heq
    exact ⟨howner, hnew, hsent, rfl⟩
  · rintro ⟨howner, hnew, hsent, rfl⟩
    exact ⟨packet, howner, hnew, sent, hsent, rfl⟩

/-- A position gives a sample of the time that is kept for it. -/
theorem sent_sampleAt? (t : Timesheet) (after : Departures) (now : Time) (position : Nat) :
    (t.sampleAt? after now position).map (·.sent) =
      if t.record.gains after position then t.pending? position else none := by
  simp only [sampleAt?, pending?]
  cases owner? t.sent.length position with
  | none => simp
  | some k =>
    cases t.record.gains after position with
    | false => rfl
    | true =>
      cases hk : t.sampled k with
      | false => simp [hk, Function.comp_def]
      | true => simp [hk]

theorem kept_start : ({} : Timesheet).Kept where
  upcoming_eq := rfl
  waiting_eq p hp := by
    simp [waiting, pending?, owner?]
  estimate_eq := rfl
  once := List.nodup_nil
  measured s hs := nomatch hs

theorem Kept.packet_lt (h : t.Kept) (hs : s ∈ t.samples) : s.packet < t.sent.length :=
  (List.getElem?_eq_some_iff.mp (h.measured s hs)).1

theorem Kept.sent (h : t.Kept) (now : Time) : (t.add (.sent now)).Kept where
  upcoming_eq := by
    show t.record.upcoming + 1 = UInt32.ofNat (t.sent ++ [now]).length
    rw [h.upcoming_eq, List.length_append]
    exact UInt32.ofNat_add t.sent.length 1 |>.symm
  waiting_eq p hp := by
    have hposition : t.record.upcoming.toNat % 32 = t.sent.length % 32 := by
      rw [h.upcoming_eq, UInt32.toNat_ofNat']
      omega
    have hnew : t.sampled t.sent.length = false := by
      rw [← Bool.not_eq_true, sampled_iff]
      rintro ⟨s, hs, heq⟩
      exact absurd (h.packet_lt hs) (by omega)
    show (t.record.advance now).waiting p =
      (owner? (t.sent ++ [now]).length p).bind fun k => if t.sampled k then none
      else (t.sent ++ [now])[k]?
    rw [waiting_advance _ _ hp, hposition, h.waiting_eq p hp, List.length_append,
      List.length_singleton, owner?_succ hp]
    split
    · simp [hnew]
    · rw [pending?]
      refine Option.bind_congr fun k hk => ?_
      rw [List.getElem?_append_left ((owner?_eq_some_iff hp).mp hk).1]
  estimate_eq := h.estimate_eq
  once := h.once
  measured s hs := by
    show (t.sent ++ [now])[s.packet]? = some s.sent
    rw [List.getElem?_append_left (h.packet_lt hs)]
    exact h.measured s hs

theorem mem_fresh : s ∈ t.fresh after now ↔
    (s.packet < t.sent.length ∧ t.sent.length ≤ s.packet + 32) ∧
      (t.record.gains after (s.packet % 32) = true ∧ t.sampled s.packet = false) ∧
      t.sent[s.packet]? = some s.sent ∧ s.taken = now := by
  simp only [fresh, List.mem_filterMap, List.mem_range]
  constructor
  · rintro ⟨p, hp, hs⟩
    obtain ⟨⟨hlt, hle, rfl⟩, hrest⟩ := (sampleAt?_eq_some_iff hp).mp hs
    exact ⟨⟨hlt, hle⟩, hrest⟩
  · rintro ⟨⟨hlt, hle⟩, hrest⟩
    have hp : s.packet % 32 < 32 := Nat.mod_lt _ (by decide)
    exact ⟨s.packet % 32, hp, (sampleAt?_eq_some_iff hp).mpr ⟨⟨hlt, hle, rfl⟩, hrest⟩⟩

theorem nodup_fresh (t : Timesheet) (after : Departures) (now : Time) :
    ((t.fresh after now).map (·.packet)).Nodup := by
  rw [List.Nodup, List.pairwise_map, fresh, List.pairwise_filterMap]
  refine List.nodup_range.imp_of_mem fun hp hq hne s hs s' hs' heq => hne ?_
  obtain ⟨⟨-, -, rfl⟩, -⟩ := (sampleAt?_eq_some_iff (List.mem_range.mp hp)).mp hs
  obtain ⟨⟨-, -, rfl⟩, -⟩ := (sampleAt?_eq_some_iff (List.mem_range.mp hq)).mp hs'
  rw [heq]

theorem sampled_report {ack bits : UInt32} {k : Nat} (hp : position < 32)
    (howner : owner? t.sent.length position = some k) : (t.add (.report ack bits now)).sampled k =
      (t.sampled k || t.record.gains (t.record.acknowledge ack bits now).2 position) := by
  obtain ⟨hlt, hle, rfl⟩ := (owner?_eq_some_iff hp).mp howner
  have hsent : t.sent[k]? = some t.sent[k] := List.getElem?_eq_getElem hlt
  rw [Bool.eq_iff_iff, Bool.or_eq_true]
  constructor
  · rw [sampled_iff]
    rintro ⟨s, hs, rfl⟩
    rcases List.mem_append.mp hs with hold | hnew
    · exact .inl (sampled_iff.mpr ⟨s, hold, rfl⟩)
    · exact .inr (mem_fresh.mp hnew).2.1.1
  · intro h
    cases hold : t.sampled k with
    | true =>
      obtain ⟨s, hs, hk⟩ := sampled_iff.mp hold
      exact sampled_iff.mpr ⟨s, List.mem_append_left _ hs, hk⟩
    | false =>
      have hgains := h.resolve_left (by simp [hold])
      refine sampled_iff.mpr ⟨⟨k, t.sent[k], now⟩, List.mem_append_right _ ?_, rfl⟩
      exact mem_fresh.mpr ⟨⟨hlt, hle⟩, ⟨hgains, hold⟩, hsent, rfl⟩

theorem Kept.report (h : t.Kept) (ack bits : UInt32) (now : Time) :
    (t.add (.report ack bits now)).Kept := by
  obtain ⟨hestimate, hwaiting⟩ := t.record.acknowledge_samples now ack bits
  refine ⟨?_, fun p hp => ?_, ?_, ?_, fun s hs => ?_⟩
  · show (t.record.acknowledge ack bits now).2.sequence + 1 = _
    rw [(t.record.acknowledge_cases ack bits now).1]
    exact h.upcoming_eq
  · show (t.record.acknowledge ack bits now).2.waiting p = (owner? t.sent.length p).bind _
    rw [hwaiting p hp, h.waiting_eq p hp, pending?]
    cases howner : owner? t.sent.length p with
    | none => simp
    | some k =>
      rw [Option.bind_some, Option.bind_some, sampled_report hp howner]
      cases t.record.gains (t.record.acknowledge ack bits now).2 p with
      | true => simp
      | false =>
        rw [Bool.or_false, if_neg Bool.false_ne_true]
        rfl
  · -- each new sample is measured from the time that waited at its position
    have htimes :
        ((List.range 32).filter (t.record.gains (t.record.acknowledge ack bits now).2)).filterMap
        t.record.waiting = (t.fresh (t.record.acknowledge ack bits now).2 now).map (·.sent) := by
      rw [List.filterMap_filter, fresh, List.map_filterMap]
      refine List.filterMap_congr fun p hp => ?_
      rw [sent_sampleAt?, h.waiting_eq p (List.mem_range.mp hp)]
    show (t.record.acknowledge ack bits now).2.roundTrip = (t.samples ++ t.fresh _ now).foldl _ _
    rw [hestimate, htimes, h.estimate_eq, List.foldl_append, measure, List.foldl_map]
    refine List.foldl_ext _ _ _ fun r s hs => ?_
    rw [Sample.millis, (mem_fresh.mp hs).2.2.2]
  · show ((t.samples ++ t.fresh _ now).map (·.packet)).Nodup
    rw [List.map_append]
    refine List.nodup_append.mpr ⟨h.once, nodup_fresh _ _ _, ?_⟩
    rintro k hold _ hnew rfl
    obtain ⟨s, hs, rfl⟩ := List.mem_map.mp hnew
    have hfirst := (mem_fresh.mp hs).2.1.2
    exact of_decide_eq_false hfirst hold
  · rcases List.mem_append.mp hs with hold | hnew
    · exact h.measured s hold
    · exact (mem_fresh.mp hnew).2.2.1

theorem ofEvents_concat (events : List Event) (e : Event) :
    ofEvents (events ++ [e]) = (ofEvents events).add e :=
  List.foldl_append ..

theorem kept_ofEvents (events : List Event) : (ofEvents events).Kept := by
  induction events using List.reverseRecOn with
  | nil => exact kept_start
  | append_singleton events e ih =>
    rw [ofEvents_concat]
    cases e with
    | sent now => exact ih.sent now
    | report ack bits now => exact ih.report ack bits now

/-- The sample was taken by a report that newly acknowledged its packet, at that
time one of the last 32. -/
def Gained (events : List Event) (s : Sample) : Prop :=
  ∃ before ack bits later, events = before ++ .report ack bits s.taken :: later ∧
    s.packet < (ofEvents before).sent.length ∧ (ofEvents before).sent.length ≤ s.packet + 32 ∧
    (ofEvents before).record.isAcked (UInt32.ofNat s.packet) = false ∧
    ((ofEvents before).record.acknowledge ack bits s.taken).2.isAcked (UInt32.ofNat s.packet) = true

theorem Gained.concat {events : List Event} (h : Gained events s) (e : Event) :
    Gained (events ++ [e]) s := by
  obtain ⟨before, ack, bits, later, rfl, hreport⟩ := h
  exact ⟨before, ack, bits, later ++ [e], by simp, hreport⟩

theorem gained_of_mem_fresh {events : List Event} {ack bits : UInt32}
    (hs : s ∈ (ofEvents events).fresh ((ofEvents events).record.acknowledge ack bits now).2 now) :
    Gained (events ++ [.report ack bits now]) s := by
  obtain ⟨⟨hlt, hle⟩, ⟨hgains, -⟩, -, rfl⟩ := mem_fresh.mp hs
  have hsame (d : Departures) :
      d.isAcked (UInt32.ofNat (s.packet % 32)) = d.isAcked (UInt32.ofNat s.packet) :=
    Window.has_congr (by simp only [UInt32.toNat_ofNat']; omega)
  rw [gains, hsame, hsame, Bool.and_eq_true, Bool.not_eq_true'] at hgains
  exact ⟨events, ack, bits, [], rfl, hlt, hle, hgains.2, hgains.1⟩

theorem gained_of_mem_samples {events : List Event} (hs : s ∈ (ofEvents events).samples) :
    Gained events s := by
  induction events using List.reverseRecOn with
  | nil => cases hs
  | append_singleton events e ih =>
    rw [ofEvents_concat] at hs
    cases e with
    | sent now => exact (ih hs).concat _
    | report ack bits now =>
      rcases List.mem_append.mp hs with hold | hnew
      · exact (ih hold).concat _
      · exact gained_of_mem_fresh hnew

theorem samples_foldl_sample (samples : List Sample) (r : RoundTrip) :
    (samples.foldl (fun r s => r.sample s.millis) r).samples = r.samples + samples.length := by
  induction samples generalizing r with
  | nil => rfl
  | cons s rest ih => rw [List.foldl_cons, ih, RoundTrip.samples_sample, List.length_cons]; omega

theorem Kept.length_samples_le (h : t.Kept) : t.samples.length ≤ t.sent.length := by
  have hsubset : t.samples.map (·.packet) ⊆ List.range t.sent.length := by
    intro k hk
    obtain ⟨s, hs, rfl⟩ := List.mem_map.mp hk
    exact List.mem_range.mpr (h.packet_lt hs)
  simpa using (List.Nodup.subperm h.once hsubset).length_le

/-- Whatever is reported about packets, and whenever: the estimate is made of
samples of different packets, so there are no more samples than packets. Each
is measured from the time when its packet was sent, and was taken by a report
that newly acknowledged that packet while it was one of the last 32. -/
theorem sampled_once (events : List Event) :
    (ofEvents events).record.upcoming = UInt32.ofNat (ofEvents events).sent.length ∧
      (ofEvents events).record.roundTrip =
        (ofEvents events).samples.foldl (fun r s => r.sample s.millis) {} ∧
      ((ofEvents events).samples.map (·.packet)).Nodup ∧
      (∀ s ∈ (ofEvents events).samples, (ofEvents events).sent[s.packet]? = some s.sent ∧
        Gained events s) ∧
      (ofEvents events).record.roundTrip.samples ≤ (ofEvents events).sent.length := by
  have h := kept_ofEvents events
  refine ⟨h.upcoming_eq, h.estimate_eq, h.once, fun s hs =>
      ⟨h.measured s hs, gained_of_mem_samples hs⟩, ?_⟩
  rw [h.estimate_eq, samples_foldl_sample]
  simpa using h.length_samples_le

/-- A packet that is acknowledged, forgotten and acknowledged again gives one sample. -/
example :
    (ofEvents [.sent 0, .report 0 1 10, .report 0 0 20, .report 0 1 30]).samples =
      [⟨0, 0, 10⟩] := by
  decide +kernel

end

end Timesheet

end Courier.Departures
