import Mathlib.Data.List.Count
import Courier.Proofs.Intake.Complete
import Courier.Proofs.Manifest.Waiting

/-!
# From an outbox to an assembly

Payloads are queued in an outbox while packets are filled from it. What the
outbox gives away, and what it still holds at the end, are the messages of the
payloads that it accepted (`Filed`). In whatever order the messages of at most
eight payloads arrive, and however often those of critical ones, an assembly
returns each payload once and keeps nothing (`run_returned`).
-/

namespace Courier

inductive Load where
  | queue (p : Payload) (acked : UInt32)
  | fill (limit capacity : Nat) (packet : UInt8)

/-- An outbox with what went through it. -/
structure Loading where
  box : Outbox
  /-- The payloads that were accepted, with their ids. -/
  queued : List (Payload × UInt8) := []
  /-- The messages that went into packets. -/
  loaded : List Message := []

namespace Loading

def step (s : Loading) : Load → Loading
  | .queue p acked =>
    match s.box.enqueue p.kind p.critical p.data acked with
    | (.ok id, box) => { s with box, queued := s.queued ++ [(p, id)] }
    | (.error _, box) => { s with box }
  | .fill limit capacity packet =>
    { s with
      box := (s.box.drainUpTo limit capacity packet).2
      loaded := s.loaded ++ (s.box.drainUpTo limit capacity packet).1 }

def messages (s : Loading) : List Message := s.loaded ++ s.box.pending

def run (first : UInt8) (loads : List Load) : Loading :=
  loads.foldl step { box := { nextId := first } }

/-- The payloads have ids from `first` on, and the messages are theirs. -/
structure Filed (first : UInt8) (s : Loading) : Prop where
  ring : s.box.Ring
  nextId_eq : s.box.nextId = UInt8.ofNat (first.toNat + s.queued.length)
  id_eq : ∀ k (hk : k < s.queued.length), s.queued[k].2 = UInt8.ofNat (first.toNat + k)
  messages_eq :
    s.messages = s.queued.flatMap fun x => Outbox.pieces x.1.kind x.1.critical x.2 x.1.data
  fits : ∀ x ∈ s.queued, Outbox.messagesNeeded x.1.data.length < Outbox.capacity

section
variable {first : UInt8} {s : Loading}

theorem filed_start (first : UInt8) : Filed first { box := { nextId := first } } where
  ring := ⟨Outbox.ring_empty.length_le, Outbox.ring_empty.next_eq, Outbox.ring_empty.pending_iff⟩
  nextId_eq := by simp
  id_eq k hk := nomatch hk
  messages_eq := rfl
  fits x hx := nomatch hx

theorem Filed.queue (h : Filed first s) (p : Payload) (acked : UInt32) :
    Filed first (s.step (.queue p acked)) := by
  simp only [step]
  rcases h.ring.enqueue_cases p.kind p.critical p.data acked with ⟨e, herror⟩ | ⟨hok, hpush, hroom⟩
  · rw [herror]
    exact ⟨h.ring, h.nextId_eq, h.id_eq, h.messages_eq, h.fits⟩
  · rw [hok]
    obtain ⟨hring, hnextId, hpending⟩ := (h.ring.withNextId (s.box.nextId + 1)).pushAll hpush
    have hid : s.box.nextId = UInt8.ofNat (first.toNat + s.queued.length) := h.nextId_eq
    refine ⟨hring, ?_, ?_, ?_, ?_⟩
    · rw [hnextId, List.length_append, List.length_singleton, ← Nat.add_assoc, UInt8.ofNat_add,
        ← hid]
      rfl
    · intro k hk
      rcases Nat.lt_or_ge k s.queued.length with hlt | hge
      · rw [List.getElem_append_left hlt]
        exact h.id_eq k hlt
      · obtain rfl : k = s.queued.length := by
          simp only [List.length_append, List.length_singleton] at hk
          omega
        rw [List.getElem_concat_length rfl]
        exact hid
    · rw [messages, hpending, List.flatMap_append, ← h.messages_eq, messages, List.append_assoc]
      simp [Outbox.pending, Outbox.slot]
    · intro x hx
      rcases List.mem_append.mp hx with hx | hx
      · exact h.fits x hx
      · rw [List.mem_singleton.mp hx]
        exact Nat.lt_of_le_of_lt (Nat.le_add_left _ _) hroom

theorem Filed.fill (h : Filed first s) (limit capacity : Nat) (packet : UInt8) :
    Filed first (s.step (.fill limit capacity packet)) := by
  have hdrained := h.ring.drainUpTo limit capacity packet
  refine ⟨hdrained.ring, hdrained.nextId_eq.trans h.nextId_eq, h.id_eq, ?_, h.fits⟩
  have hmessages := h.messages_eq
  rw [messages, hdrained.pending_eq h.ring] at hmessages
  simpa [messages, step] using hmessages

theorem filed_run (first : UInt8) (loads : List Load) : Filed first (run first loads) := by
  induction loads using List.reverseRecOn with
  | nil => exact filed_start first
  | append_singleton loads load ih =>
    rw [run, List.foldl_append]
    cases load with
    | queue p acked => exact ih.queue p acked
    | fill limit capacity packet => exact ih.fill limit capacity packet

-- ---------------------------------------------------------------------------
-- Payloads by number
-- ---------------------------------------------------------------------------

def blank : Payload := { kind := .data, critical := false, data := [] }

def payloads (first : UInt8) (s : Loading) : List Payload :=
  List.replicate first.toNat blank ++ s.queued.map (·.1)

/-- The number of the payload that a message belongs to. -/
def number (first : UInt8) (m : Message) : Nat := first.toNat + (m.fragment - first).toNat

theorem getElem?_payloads (first : UInt8) (s : Loading) (k : Nat) :
    (s.payloads first)[first.toNat + k]? = s.queued[k]?.map (·.1) := by
  rw [payloads, List.getElem?_append_right (by simp)]
  simp

theorem length_payloads (first : UInt8) (s : Loading) :
    (s.payloads first).length = first.toNat + s.queued.length := by
  simp [payloads]

theorem number_eq {m : Message} {k : Nat} (hk : k < Assembly.maxGroups)
    (hm : m.fragment = UInt8.ofNat (first.toNat + k)) : number first m = first.toNat + k := by
  have hlt := first.toNat_lt
  simp only [Assembly.maxGroups] at hk
  rw [number, hm, UInt8.toNat_sub, UInt8.toNat_ofNat']
  omega

theorem Filed.mem_messages (h : Filed first s) {m : Message} : m ∈ s.messages ↔
    ∃ k, ∃ hk : k < s.queued.length, m ∈ s.queued[k].1.pieces (first.toNat + k) := by
  rw [h.messages_eq, List.mem_flatMap]
  constructor
  · rintro ⟨x, hx, hm⟩
    obtain ⟨k, hk, rfl⟩ := List.getElem_of_mem hx
    rw [h.id_eq k hk] at hm
    exact ⟨k, hk, hm⟩
  · rintro ⟨k, hk, hm⟩
    refine ⟨_, List.getElem_mem hk, ?_⟩
    rw [h.id_eq k hk]
    exact hm

theorem Filed.sendable (h : Filed first s) (hkind : ∀ x ∈ s.queued, x.1.kind ≠ .announcement) :
    ∀ p ∈ s.payloads first, p.Sendable := by
  intro p hp
  rcases List.mem_append.mp hp with hp | hp
  · rw [List.eq_of_mem_replicate hp]
    exact ⟨by decide, by decide⟩
  · obtain ⟨x, hx, rfl⟩ := List.mem_map.mp hp
    exact ⟨h.fits x hx, hkind x hx⟩

def returned (first : UInt8) (s : Loading) (u : Nat) : Delivery :=
  ((s.payloads first)[u]?.getD blank).delivery u

theorem Filed.map_returned (h : Filed first s) :
    ((List.range s.queued.length).map (first.toNat + ·)).map (s.returned first) =
      s.queued.map fun x =>
        { kind := x.1.kind, critical := x.1.critical, fragment := x.2, data := x.1.data } := by
  refine List.ext_getElem (by simp) fun k hk _ => ?_
  have hk : k < s.queued.length := by simpa using hk
  simp [returned, getElem?_payloads, hk, Payload.delivery, h.id_eq k hk]

def numbered (first : UInt8) (ms : List Message) : List (Message × Nat) :=
  ms.map fun m => (m, number first m)

theorem mem_numbered {m : Message} {u : Nat} {ms : List Message} :
    (m, u) ∈ numbered first ms ↔ m ∈ ms ∧ number first m = u := by
  simp [numbered]

theorem count_numbered (first : UInt8) (ms : List Message) (m : Message) :
    (numbered first ms).count (m, number first m) = ms.count m :=
  List.count_map_of_injective ms (fun m => (m, number first m))
    (fun _ _ hsame => congrArg Prod.fst hsame) m

section
variable (h : Filed first s) (hfew : s.queued.length ≤ 8) {ms : List Message}
  (hms : ∀ m, m ∈ ms ↔ m ∈ s.messages)

include h hfew hms

theorem Filed.queued_of_mem {x : Message × Nat} (hx : x ∈ numbered first ms) :
    ∃ k, ∃ hk : k < s.queued.length, x.2 = first.toNat + k ∧ x.1 ∈ s.queued[k].1.pieces x.2 := by
  obtain ⟨m, u⟩ := x
  obtain ⟨hmem, rfl⟩ := mem_numbered.mp hx
  obtain ⟨k, hk, hm⟩ := h.mem_messages.mp ((hms m).mp hmem)
  have hnumber := number_eq (Nat.lt_of_lt_of_le hk hfew) (Payload.fragment_of_mem hm)
  exact ⟨k, hk, hnumber, hnumber.symm ▸ hm⟩

theorem Filed.belongs : ∀ x ∈ numbered first ms, Payload.Belongs (s.payloads first) x := by
  intro x hx
  obtain ⟨k, hk, hnumber, hm⟩ := h.queued_of_mem hfew hms hx
  refine ⟨s.queued[k].1, ?_, hm⟩
  rw [hnumber, getElem?_payloads, List.getElem?_eq_getElem hk]
  rfl

theorem Filed.within : ∀ x ∈ numbered first ms, Intake.Within first.toNat x.2 := by
  intro x hx
  obtain ⟨k, hk, hnumber, -⟩ := h.queued_of_mem hfew hms hx
  rw [hnumber]
  exact ⟨Nat.le_add_right _ _, by simp only [Assembly.maxGroups]; omega⟩

theorem Filed.all : ∀ u p, Intake.Within first.toNat u → (s.payloads first)[u]? = some p →
    ∀ m ∈ p.pieces u, (m, u) ∈ numbered first ms := by
  rintro u p ⟨hle, -⟩ hp m hm
  obtain ⟨k, rfl⟩ := Nat.exists_eq_add_of_le hle
  rw [getElem?_payloads, Option.map_eq_some_iff] at hp
  obtain ⟨x, hx, rfl⟩ := hp
  obtain ⟨hk, rfl⟩ := List.getElem?_eq_some_iff.mp hx
  have hmem : m ∈ s.messages := h.mem_messages.mpr ⟨k, hk, hm⟩
  exact mem_numbered.mpr ⟨(hms m).mpr hmem,
    number_eq (Nat.lt_of_lt_of_le hk hfew) (Payload.fragment_of_mem hm)⟩

end

/-- Whatever order the messages of at most eight payloads arrive in, and however
often those of critical ones, each payload is returned once and nothing is kept. -/
theorem run_returned (first : UInt8) (loads : List Load)
    (hfew : (run first loads).queued.length ≤ 8)
    (hkind : ∀ x ∈ (run first loads).queued, x.1.kind ≠ .announcement) {ms : List Message}
    (hms : ∀ m, m ∈ ms ↔ m ∈ (run first loads).messages)
    (honce : ∀ m ∈ ms, m.critical = false → ms.count m = 1) :
    (({} : Assembly).acceptAll ms).1.Perm ((run first loads).queued.map fun x =>
        { kind := x.1.kind, critical := x.1.critical, fragment := x.2, data := x.1.data }) ∧
      (({} : Assembly).acceptAll ms).2.groups = [] := by
  have hfiled := filed_run first loads
  generalize run first loads = s at *
  have hsendable := hfiled.sendable hkind
  have hbelongs := hfiled.belongs hfew hms
  have hwithin := hfiled.within hfew hms
  have hall := hfiled.all hfew hms
  have honce : ∀ x ∈ numbered first ms, x.1.critical = false → (numbered first ms).count x ≤ 1 := by
    rintro ⟨m, u⟩ hx hc
    obtain ⟨hmem, rfl⟩ := mem_numbered.mp hx
    rw [count_numbered]
    exact (honce m hmem hc).le
  obtain ⟨hassembly, hdeliveries⟩ := ({} : Intake).foldl_take (numbered first ms)
  have hmessages : (numbered first ms).map (·.1) = ms := by simp [numbered, Function.comp_def]
  rw [hmessages] at hassembly hdeliveries
  have hdelivered : (({} : Assembly).acceptAll ms).1 =
      (Intake.takeAll (numbered first ms)).returned.map (s.returned first) := by
    have hreach := Intake.inReach_of_within (List.forall_mem_map.mpr hwithin)
    rw [Intake.returned, List.map_map]
    refine hdeliveries.symm.trans (List.map_congr_left fun x hx => ?_)
    obtain ⟨p, hp, hd⟩ := Intake.takeAll_faithful hsendable hbelongs hreach x hx
    simp [returned, hp, hd]
  have hreturned := Intake.returned_perm hsendable hbelongs hwithin honce hall
    (by rw [length_payloads]; exact Nat.add_le_add_left hfew _)
  refine ⟨?_, ?_⟩
  · rw [hdelivered, ← hfiled.map_returned]
    rw [length_payloads, Nat.add_sub_cancel_left] at hreturned
    exact hreturned.map _
  · rw [← hassembly]
    exact Intake.groups_takeAll hsendable hbelongs hwithin honce hall

theorem run_returned_shuffled :
    let long : Payload := { kind := .data, critical := true, data := List.replicate 100 7 }
    let short : Payload := { kind := .credentials, critical := false, data := [1, 2] }
    let loads : List Load := [.queue long 0xffffffff, .fill 2 400 0, .queue short 0xffffffff]
    let ms :=
      [long.part 255 0, short.whole 0, long.part 255 1, long.part 255 0, long.announcement 255,
        long.announcement 255]
    (run 255 loads).queued = [(long, 255), (short, 0)] ∧
      (({} : Assembly).acceptAll ms).1.Perm
        [{ kind := .data, critical := true, fragment := 255, data := List.replicate 100 7 },
          { kind := .credentials, critical := false, fragment := 0, data := [1, 2] }] ∧
      (({} : Assembly).acceptAll ms).2.groups = [] := by
  intro long short loads ms
  have hqueued : (run 255 loads).queued = [(long, 255), (short, 0)] := by decide +kernel
  have hinto : ∀ m ∈ ms, m ∈ (run 255 loads).messages := by decide +kernel
  have hfrom : ∀ m ∈ (run 255 loads).messages, m ∈ ms := by decide +kernel
  have hreturned := run_returned 255 loads (by rw [hqueued]; decide) (by rw [hqueued]; decide)
    (fun m => ⟨hinto m, hfrom m⟩) (by decide +kernel)
  rw [hqueued] at hreturned
  exact ⟨hqueued, hreturned⟩

end

end Loading

end Courier
