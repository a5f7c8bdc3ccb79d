import Mathlib.Data.List.Induction
import Courier.Proofs.Driven

/-!
# What a guest goes through

A memoir goes along with a guest. It has a chapter for every channel that the
guest had: the changes of its phase, the datagrams that came in and the payloads
that were handled, and the messages that the guest queued of its own accord.
Whatever comes in, each chapter is a conversation in order (`Chapter.Orderly`), a
guest plays only after an approval in the current chapter, and a rejected guest
never asks again (`run_in_order`).
-/

namespace Courier

-- ---------------------------------------------------------------------------
-- Memoirs
-- ---------------------------------------------------------------------------

/-- What happened on one channel, all oldest first. -/
structure Chapter where
  changes : List (Phase × Phase) := []
  /-- Datagrams, each with the payloads that it completed. -/
  heard : List (Datagram × List Delivery) := []
  /-- Payloads, each with the phase that it met. -/
  handled : List (Phase × Delivery) := []
  /-- What the guest queued in order to proceed. -/
  presented : List Message := []

structure Memoir where
  guest : Guest
  chapter : Chapter := {}
  /-- The chapters of channels that were given up, latest first. -/
  earlier : List Chapter := []

inductive GuestMove (σ : Type) where
  | use (u : GuestUse)
  | tick (net : σ) (now : Time)

namespace Guest

def move {σ : Type} [Transport σ] (g : Guest) : GuestMove σ → Guest
  | .use u => g.use u
  | .tick net now => (g.tick net now).1

/-- The messages that are pending once the guest has proceeded, and were not before. -/
def presents (g : Guest) : List Message :=
  g.proceed.channel.outbox.pending.diff g.channel.outbox.pending

def noteFailure (g : Guest) (failure : Option String) : Guest :=
  failure.elim g fun text => g.emit (.failed (.transport text))

end Guest

namespace Memoir

def become (m : Memoir) (g : Guest) : Memoir :=
  { m with
    guest := g
    chapter.changes :=
      if m.guest.phase = g.phase then
        m.chapter.changes
      else m.chapter.changes ++ [(m.guest.phase, g.phase)] }

def hear (m : Memoir) (d : Datagram) (now : Time) : List Delivery × Memoir :=
  let (deliveries, g) := m.guest.hear d now
  (deliveries, { m.become g with chapter.heard := m.chapter.heard ++ [(d, deliveries)] })

def hearAll (now : Time) : Memoir → List Datagram → List Delivery × Memoir
  | m, [] => ([], m)
  | m, d :: rest =>
    let (first, m) := m.hear d now
    let (others, m) := hearAll now m rest
    (first ++ others, m)

def handle (m : Memoir) (d : Delivery) : Memoir :=
  { m.become (m.guest.handle d) with chapter.handled := m.chapter.handled ++ [(m.guest.phase, d)] }

def expire (m : Memoir) (now : Time) : Memoir :=
  if m.guest.channel.isTimedOut now m.guest.config.timeout then
    { guest := m.guest.expire now, earlier := m.chapter :: m.earlier }
  else m

def proceed (m : Memoir) : Memoir :=
  { m.become m.guest.proceed with chapter.presented := m.chapter.presented ++ m.guest.presents }

def absorb (m : Memoir) (inflow : Inflow) (now : Time) : Memoir :=
  let m := m.become { m.guest with channel := m.guest.channel.settle.2 }
  let (deliveries, m) := m.hearAll now inflow.datagrams
  let m := m.become (m.guest.noteFailure inflow.failure)
  ((deliveries.foldl handle m).expire now).proceed

def transmit {σ : Type} [Transport σ] (m : Memoir) (net : σ) (now : Time) : Memoir :=
  m.become (m.guest.transmit net now).1

def tick {σ : Type} [Transport σ] (m : Memoir) (net : σ) (now : Time) : Memoir :=
  let (inflow, net) := Transport.receive net Packet.maxSize
  let m := (m.absorb inflow now).transmit net now
  m.become { m.guest.collect with ticks := m.guest.ticks + 1 }

def step {σ : Type} [Transport σ] (m : Memoir) : GuestMove σ → Memoir
  | .use u => m.become (m.guest.use u)
  | .tick net now => m.tick net now

def run {σ : Type} [Transport σ] (g : Guest) (moves : List (GuestMove σ)) : Memoir :=
  moves.foldl step { guest := g }

/-- What the guest queued in order to proceed, on all its channels. -/
def presentations (m : Memoir) : List Message := (m.chapter :: m.earlier).flatMap (·.presented)

section
variable {σ : Type} [Transport σ] {m : Memoir} {g : Guest} {now : Time}

@[simp] theorem guest_become (m : Memoir) (g : Guest) : (m.become g).guest = g := rfl

theorem guest_hearAll (m : Memoir) (now : Time) (ds : List Datagram) :
    (hearAll now m ds).1 = (Guest.hearAll now m.guest ds).1 ∧
      (hearAll now m ds).2.guest = (Guest.hearAll now m.guest ds).2 := by
  induction ds generalizing m with
  | nil => exact ⟨rfl, rfl⟩
  | cons d rest ih =>
    obtain ⟨hothers, hguest⟩ := ih (m.hear d now).2
    exact ⟨congrArg ((m.guest.hear d now).1 ++ ·) hothers, hguest⟩

theorem guest_handleAll (m : Memoir) (ds : List Delivery) :
    (ds.foldl handle m).guest = ds.foldl Guest.handle m.guest := by
  induction ds generalizing m with
  | nil => rfl
  | cons d rest ih => exact ih (m.handle d)

theorem guest_expire (m : Memoir) (now : Time) : (m.expire now).guest = m.guest.expire now := by
  unfold expire
  split
  · rfl
  next hheard => rw [Guest.expire, if_neg hheard]

theorem guest_absorb (m : Memoir) (inflow : Inflow) (now : Time) :
    (m.absorb inflow now).guest = m.guest.absorb inflow now := by
  obtain ⟨hdeliveries, hguest⟩ :=
    guest_hearAll (m.become { m.guest with channel := m.guest.channel.settle.2 }) now
      inflow.datagrams
  have hfinish : ∀ m' : Memoir, (m'.expire now).proceed.guest = (m'.guest.expire now).proceed := by
    intro m'
    rw [← guest_expire]
    rfl
  simp only [absorb, Guest.absorb, guest_become] at hdeliveries hguest ⊢
  rw [hfinish, guest_handleAll, hdeliveries, guest_become, hguest]
  rfl

theorem guest_tick (m : Memoir) (net : σ) (now : Time) :
    (m.tick net now).guest = (m.guest.tick net now).1 := by
  simp only [tick, Guest.tick, transmit, guest_become, guest_absorb]

theorem guest_step (m : Memoir) (mv : GuestMove σ) : (m.step mv).guest = m.guest.move mv := by
  cases mv with
  | use u => rfl
  | tick net now => exact m.guest_tick net now

theorem guest_run (g : Guest) (moves : List (GuestMove σ)) :
    (run g moves).guest = moves.foldl Guest.move g := by
  induction moves using List.reverseRecOn with
  | nil => rfl
  | append_singleton moves mv ih =>
    rw [List.foldl_append, ← ih, run, List.foldl_append]
    exact guest_step ..

end

end Memoir

-- ---------------------------------------------------------------------------
-- Conversations in order
-- ---------------------------------------------------------------------------

theorem Verdict.of_decode_true {data : Bytes} (h : Verdict.decode data = .ok true) :
    ∃ flag, data = [flag] ∧ flag ≠ 0 := by
  unfold Verdict.decode at h
  split at h
  next flag => exact ⟨flag, rfl, by simpa using h⟩
  · cases h

namespace Guest

section
variable {g : Guest} {d : Delivery}

theorem source_of_hear {e : Datagram} {now : Time} (h : d ∈ (g.hear e now).1) :
    e.source = g.server := by
  unfold hear at h
  split at h
  next hsource => exact hsource
  · cases h

theorem hear_same (g : Guest) (e : Datagram) (now : Time) :
    (g.hear e now).2.phase = g.phase ∧ (g.hear e now).2.rejected = g.rejected := by
  simp only [hear, Channel.accept]
  split
  · cases Packet.decode e.bytes with
    | error _ => exact ⟨rfl, rfl⟩
    | ok p => exact ⟨(g.channel.quiet_receive p e.bytes.length now).phase_eq, rfl⟩
  · exact ⟨rfl, rfl⟩

/-- All that a payload can do to a guest. -/
inductive Handles (g : Guest) (d : Delivery) : Guest → Prop
  | same {g' : Guest} (hserver : g'.server = g.server) (hphase : g'.phase = g.phase)
      (hrejected : g'.rejected = g.rejected) : Handles g d g'
  | approve {g' : Guest} (hasking : g.phase = .asking) (hkind : d.kind = .verdict) {flag : UInt8}
      (hdata : d.data = [flag]) (hflag : flag ≠ 0) (hserver : g'.server = g.server)
      (hphase : g'.phase = .admitted)
      (hrejected : g'.rejected = g.rejected) : Handles g d g'
  | refuse {g' : Guest} (hasking : g.phase = .asking) (hserver : g'.server = g.server)
      (hphase : g'.phase = .idle)
      (hrejected : g'.rejected = true) : Handles g d g'

theorem handles (g : Guest) (d : Delivery) : Handles g d (g.handle d) := by
  unfold handle
  split
  next hkind =>
    cases hdecode : Verdict.decode d.data with
    | error e => exact .same rfl rfl rfl
    | ok accepted =>
      dsimp only
      split
      next hasking =>
        cases accepted with
        | true =>
          obtain ⟨flag, hdata, hflag⟩ := Verdict.of_decode_true hdecode
          exact .approve hasking hkind hdata hflag (Channel.peer_setPhase ..)
            (Channel.phase_setPhase ..) rfl
        | false => exact .refuse hasking (Channel.peer_setPhase ..) (Channel.phase_setPhase ..) rfl
      · exact .same rfl rfl rfl
  · exact .same rfl rfl rfl

def request (g : Guest) (id : UInt8) : Message :=
  { kind := .credentials, critical := true, fragment := id, order := 0,
    data := g.credentials.encode }

/-- All that a guest can do to proceed. -/
inductive Proceeds (g : Guest) : Guest → Prop
  | same {g' : Guest} (hnone : g.presents = []) (hserver : g'.server = g.server)
      (hphase : g'.phase = g.phase) (hrejected : g'.rejected = g.rejected) : Proceeds g g'
  | ask {g' : Guest} {id : UInt8} (hone : g.presents = [g.request id]) (hidle : g.phase = .idle)
      (hfree : g.rejected = false) (hserver : g'.server = g.server) (hphase : g'.phase = .asking)
      (hrejected : g'.rejected = g.rejected) : Proceeds g g'
  | play {g' : Guest} (hnone : g.presents = []) (hadmitted : g.phase = .admitted)
      (hserver : g'.server = g.server) (hphase : g'.phase = .playing)
      (hrejected : g'.rejected = g.rejected) : Proceeds g g'

theorem append_diff (before added : List Message) : (before ++ added).diff before = added := by
  induction before with
  | nil => rfl
  | cons m rest ih => rw [List.diff_cons, List.cons_append, List.erase_cons_head, ih]

theorem presents_of_pending {ms : List Message}
    (h : g.proceed.channel.outbox.pending = g.channel.outbox.pending ++ ms) : g.presents = ms := by
  rw [presents, h, append_diff]

theorem presents_of_outgoing (h : g.proceed.channel.outgoing = g.channel.outgoing) :
    g.presents = [] := by
  refine presents_of_pending ?_
  rw [Channel.outbox, h, List.append_nil]
  rfl

theorem proceeds_same (h : g.proceed = g) : Proceeds g g.proceed := by
  have hnone := presents_of_outgoing (g := g) (by rw [h])
  rw [h]
  exact .same hnone rfl rfl rfl

theorem proceed_of_idle (hidle : g.phase = .idle) (hfree : g.rejected = false) {box : Outbox}
    {result : Except OutboxError UInt8}
    (hqueued : g.channel.outbox.enqueue .credentials true g.credentials.encode
      g.channel.departures.acked = (result, box)) :
    let asked := { g.channel with outgoing := { g.channel.outgoing with outbox := box } }
    g.proceed = { g with channel := if result.isOk then asked.setPhase .asking else asked } := by
  have hresult : g.channel.outgoing.outbox.enqueue .credentials true g.credentials.encode
      g.channel.departures.acked = (result, box) := hqueued
  simp only [proceed, hidle, hfree, Channel.enqueue, hresult, Bool.false_eq_true, if_false]
  cases result with
  | ok id => rfl
  | error e => rfl

/-- Credentials are queued as one message, or not at all. -/
theorem proceeds_of_idle (hring : g.channel.outbox.Ring) (hidle : g.phase = .idle)
    (hfree : g.rejected = false) : Proceeds g g.proceed := by
  let p : Payload := { kind := .credentials, critical := true, data := g.credentials.encode }
  by_cases hfit : g.channel.outbox.Fitting p g.channel.departures.acked
  · obtain ⟨after, hok, hfilled⟩ := hring.enqueue_fitting hfit
    let asked := { g.channel with outgoing := { g.channel.outgoing with outbox := after } }
    have hproceed : g.proceed = { g with channel := asked.setPhase .asking } :=
      proceed_of_idle hidle hfree hok
    have hshort : p.data.length ≤ Message.maxData := by
      rw [Credentials.length_encode]
      decide
    have hone : g.presents = [g.request g.channel.outbox.nextId] := by
      refine presents_of_pending ?_
      rw [hproceed, Channel.outbox, Channel.outgoing_setPhase]
      exact hfilled.pending_eq.trans (congrArg _ (Outbox.pieces_short hshort))
    rw [hproceed]
    exact .ask hone hidle hfree (Channel.peer_setPhase ..) (Channel.phase_setPhase ..) rfl
  · exact proceeds_same (proceed_of_idle hidle hfree (Outbox.enqueue_refused hfit))

theorem proceeds (hring : g.channel.outbox.Ring) : Proceeds g g.proceed := by
  cases hphase : g.phase with
  | idle =>
    cases hfree : g.rejected with
    | false => exact proceeds_of_idle hring hphase hfree
    | true => exact proceeds_same (by simp [proceed, hphase, hfree])
  | admitted =>
    have hproceed : g.proceed = { g with channel := g.channel.setPhase .playing } := by
      simp [proceed, hphase]
    have hnone := presents_of_outgoing (g := g) (by rw [hproceed, Channel.outgoing_setPhase])
    rw [hproceed]
    exact .play hnone hphase (Channel.peer_setPhase ..) (Channel.phase_setPhase ..) rfl
  | asking | playing => exact proceeds_same (by simp [proceed, hphase])

end

end Guest

namespace Chapter

/-- The changes of phase are steps of a conversation, and to proceed the guest queued
its credentials at most once, and nothing else. -/
structure Orderly (c : Chapter) (phase : Phase) : Prop where
  path : Phase.Path .idle c.changes phase
  presented_le : c.presented.length ≤ 1
  credentials : ∀ m ∈ c.presented, m.kind = .credentials

/-- A datagram of the server completed the payload. -/
def Heard (c : Chapter) (server : Address) (d : Delivery) : Prop :=
  ∃ heard ∈ c.heard, heard.1.source = server ∧ d ∈ heard.2

/-- An approval by the server was handled while the credentials were under review. -/
def Approved (c : Chapter) (server : Address) : Prop :=
  ∃ d, c.Heard server d ∧ (Phase.asking, d) ∈ c.handled ∧ d.kind = .verdict ∧
  ∃ flag, d.data = [flag] ∧ flag ≠ 0

end Chapter

namespace Memoir

/-- What holds of a guest at every moment. -/
structure Sound (server : Address) (m : Memoir) : Prop where
  driven : m.guest.Driven
  server_eq : m.guest.server = server
  orderly : m.chapter.Orderly m.guest.phase
  fresh : m.guest.phase = .idle → m.guest.rejected = false → m.chapter.presented = []
  approved : m.guest.phase = .admitted ∨ m.guest.phase = .playing → m.chapter.Approved server
  rejected : m.guest.rejected = true → m.guest.phase = .idle
  earlier : ∀ c ∈ m.earlier, ∃ phase, c.Orderly phase

/-- What happens between two moments; being rejected is final. -/
structure Continues (server : Address) (m m' : Memoir) : Prop where
  sound : m'.Sound server
  final : m.guest.rejected = true → m'.guest.rejected = true ∧ m'.presentations = m.presentations

section
variable {σ : Type} [Transport σ] {m m' m'' : Memoir} {g : Guest} {server : Address} {now : Time}
  {d : Delivery}

theorem Continues.trans (h : Continues server m m') (h' : Continues server m' m'') :
    Continues server m m'' where
  sound := h'.sound
  final hrejected := by
    obtain ⟨hrejected, hsame⟩ := h.final hrejected
    obtain ⟨hrejected', hsame'⟩ := h'.final hrejected
    exact ⟨hrejected', hsame'.trans hsame⟩

theorem chapter_become (hphase : g.phase = m.guest.phase) : (m.become g).chapter = m.chapter := by
  simp [become, hphase]

theorem Sound.become (hm : m.Sound server) (hdriven : g.Driven)
    (hserver : g.server = m.guest.server) (hphase : g.phase = m.guest.phase)
    (hrejected : g.rejected = m.guest.rejected) : Continues server m (m.become g) := by
  have hchapter := chapter_become hphase
  constructor
  · refine ⟨hdriven, hserver.trans hm.server_eq, ?_, ?_, ?_, ?_, hm.earlier⟩
    · rw [hchapter, guest_become, hphase]
      exact hm.orderly
    · rw [hchapter, guest_become, hphase, hrejected]
      exact hm.fresh
    · rw [hchapter, guest_become, hphase]
      exact hm.approved
    · rw [guest_become, hphase, hrejected]
      exact hm.rejected
  · intro h
    refine ⟨hrejected.trans h, ?_⟩
    rw [presentations, hchapter]
    rfl

theorem Sound.use (hm : m.Sound server) (u : GuestUse) :
    Continues server m (m.become (m.guest.use u)) := by
  have hdriven := hm.driven.use u
  cases u with
  | send kind critical payload => exact hm.become hdriven rfl rfl rfl
  | takeEvents => exact hm.become hdriven rfl rfl rfl
  | stop => exact hm.become hdriven rfl rfl rfl

theorem Sound.noteFailure (hm : m.Sound server) (failure : Option String) :
    Continues server m (m.become (m.guest.noteFailure failure)) := by
  cases failure with
  | none => exact hm.become hm.driven rfl rfl rfl
  | some text => exact hm.become hm.driven rfl rfl rfl

theorem Sound.settle (hm : m.Sound server) :
    Continues server m (m.become { m.guest with channel := m.guest.channel.settle.2 }) :=
  have hquiet := m.guest.channel.quiet_settle
  hm.become (Channel.Driven.settle hm.driven) hquiet.peer_eq hquiet.phase_eq rfl

theorem Sound.transmit (hm : m.Sound server) (net : σ) (now : Time) :
    Continues server m (m.transmit net now) := by
  have hquiet := m.guest.channel.quiet_transmit net now
  have hdriven := Channel.Driven.transmit hm.driven net now
  simp only [Memoir.transmit, Guest.transmit]
  cases (m.guest.channel.transmit net now).1 with
  | none => exact hm.become hdriven hquiet.peer_eq hquiet.phase_eq rfl
  | some text => exact hm.become hdriven hquiet.peer_eq hquiet.phase_eq rfl

-- ---------------------------------------------------------------------------
-- What comes in
-- ---------------------------------------------------------------------------

theorem Sound.extend (hm : m.Sound server) {c : Chapter} (hchanges : c.changes = m.chapter.changes)
    (hpresented : c.presented = m.chapter.presented) (hheard : m.chapter.heard ⊆ c.heard)
    (hhandled : m.chapter.handled ⊆ c.handled) : Continues server m { m with chapter := c } := by
  constructor
  · refine ⟨hm.driven, hm.server_eq, ⟨?_, ?_, ?_⟩, ?_, fun hphase => ?_, hm.rejected, hm.earlier⟩
    · rw [hchanges]
      exact hm.orderly.path
    · rw [hpresented]
      exact hm.orderly.presented_le
    · rw [hpresented]
      exact hm.orderly.credentials
    · rw [hpresented]
      exact hm.fresh
    · obtain ⟨d, ⟨heard, hmem, hd⟩, hmet, hverdict⟩ := hm.approved hphase
      exact ⟨d, ⟨heard, hheard hmem, hd⟩, hhandled hmet, hverdict⟩
  · intro hrejected
    exact ⟨hrejected, congrArg (· ++ _) hpresented⟩

theorem Sound.hear (hm : m.Sound server) (e : Datagram) (now : Time) :
    Continues server m (m.hear e now).2 ∧
      (∀ d ∈ (m.hear e now).1, (m.hear e now).2.chapter.Heard server d) ∧
      m.chapter.heard ⊆ (m.hear e now).2.chapter.heard := by
  obtain ⟨hphase, hrejected⟩ := m.guest.hear_same e now
  have hbecome := hm.become (hm.driven.hear e now) (m.guest.server_hear e now) hphase hrejected
  have hheard : (m.become (m.guest.hear e now).2).chapter.heard = m.chapter.heard := rfl
  refine ⟨hbecome.trans (hbecome.sound.extend rfl rfl ?_ (List.Subset.refl _)), ?_, ?_⟩
  · rw [hheard]
    exact List.subset_append_left ..
  · intro d hd
    refine ⟨(e, (m.guest.hear e now).1), List.mem_append_right _ List.mem_cons_self, ?_, hd⟩
    rw [← hm.server_eq]
    exact Guest.source_of_hear hd
  · exact List.subset_append_left ..

theorem Sound.hearAll (hm : m.Sound server) (now : Time) (es : List Datagram) :
    Continues server m (hearAll now m es).2 ∧
      (∀ d ∈ (hearAll now m es).1, (hearAll now m es).2.chapter.Heard server d) ∧
      m.chapter.heard ⊆ (hearAll now m es).2.chapter.heard := by
  induction es generalizing m with
  | nil =>
    exact ⟨⟨hm, fun h => ⟨h, rfl⟩⟩, fun _ hd => (List.not_mem_nil hd).elim, List.Subset.refl _⟩
  | cons e rest ih =>
    obtain ⟨hfirst, hdeliveries, hgrows⟩ := hm.hear e now
    obtain ⟨hothers, hdeliveries', hgrows'⟩ := ih hfirst.sound
    refine ⟨hfirst.trans hothers, fun d hd => ?_, List.Subset.trans hgrows hgrows'⟩
    rcases List.mem_append.mp hd with hd | hd
    · obtain ⟨heard, hmem, hcompleted⟩ := hdeliveries d hd
      exact ⟨heard, hgrows' hmem, hcompleted⟩
    · exact hdeliveries' d hd

-- ---------------------------------------------------------------------------
-- What the guest does about it
-- ---------------------------------------------------------------------------

theorem path_become (hm : m.Sound server) (hstep : m.guest.phase.Step g.phase) :
    Phase.Path .idle (m.become g).chapter.changes g.phase := by
  have hne : m.guest.phase ≠ g.phase := by
    intro hsame
    rw [hsame] at hstep
    generalize g.phase = phase at hstep
    cases hstep
  have hchanges : (m.become g).chapter.changes = m.chapter.changes ++ [(m.guest.phase, g.phase)] :=
    if_neg hne
  rw [hchanges]
  exact hm.orderly.path.append (.cons hstep .nil)

/-- The phase takes a step. A rejected guest takes none. -/
theorem Sound.take (hm : m.Sound server) {c : Chapter} (hdriven : g.Driven)
    (hfree : m.guest.rejected = false) (hstep : m.guest.phase.Step g.phase)
    (hserver : g.server = m.guest.server) (hchanges : c.changes = (m.become g).chapter.changes)
    (hpresented : c.presented.length ≤ 1) (hcredentials : ∀ x ∈ c.presented, x.kind = .credentials)
    (hfresh : g.phase = .idle → g.rejected = false → c.presented = [])
    (happroved : g.phase = .admitted ∨ g.phase = .playing → c.Approved server)
    (hrejected : g.rejected = true → g.phase = .idle) :
    Continues server m { guest := g, chapter := c, earlier := m.earlier } where
  sound :=
    { driven := hdriven
      server_eq := hserver.trans hm.server_eq
      orderly := ⟨hchanges ▸ path_become hm hstep, hpresented, hcredentials⟩
      fresh := hfresh
      approved := happroved
      rejected := hrejected
      earlier := hm.earlier }
  final h := by
    rw [hfree] at h
    cases h

theorem Sound.not_rejected (hm : m.Sound server) (hphase : m.guest.phase ≠ .idle) :
    m.guest.rejected = false := by
  cases h : m.guest.rejected with
  | false => rfl
  | true => exact absurd (hm.rejected h) hphase

theorem Sound.handle (hm : m.Sound server) (hd : m.chapter.Heard server d) :
    Continues server m (m.handle d) := by
  have hdriven := hm.driven.handle d
  have hcases := m.guest.handles d
  unfold Memoir.handle
  generalize m.guest.handle d = g at hdriven hcases
  cases hcases with
  | same hserver hphase hrejected =>
    have hbecome := hm.become hdriven hserver hphase hrejected
    exact hbecome.trans
      (hbecome.sound.extend rfl rfl (List.Subset.refl _) (List.subset_append_left ..))
  | @approve hasking hkind flag hdata hflag hserver hphase hrejected =>
    have hfree := hm.not_rejected (by simp [hasking])
    refine hm.take hdriven hfree ?_ hserver rfl hm.orderly.presented_le hm.orderly.credentials ?_
      (fun _ => ?_) ?_
    · rw [hasking, guest_become, hphase]
      exact .grant
    · simp [hphase]
    · refine ⟨d, hd, ?_, hkind, flag, hdata, hflag⟩
      rw [hasking]
      exact List.mem_append_right _ List.mem_cons_self
    · simp [hrejected, hfree]
  | refuse hasking hserver hphase hrejected =>
    refine hm.take hdriven (hm.not_rejected (by simp [hasking])) ?_ hserver rfl
      hm.orderly.presented_le hm.orderly.credentials ?_ ?_ fun _ => hphase
    · rw [hasking, guest_become, hphase]
      exact .refuse
    · simp [hrejected]
    · simp [hphase]

theorem Sound.handleAll (hm : m.Sound server) {ds : List Delivery}
    (hds : ∀ d ∈ ds, m.chapter.Heard server d) : Continues server m (ds.foldl Memoir.handle m) := by
  induction ds generalizing m with
  | nil => exact ⟨hm, fun h => ⟨h, rfl⟩⟩
  | cons d rest ih =>
    obtain ⟨hd, hrest⟩ := List.forall_mem_cons.mp hds
    have hfirst := hm.handle hd
    exact hfirst.trans (ih hfirst.sound hrest)

theorem Sound.expire (hm : m.Sound server) (now : Time) : Continues server m (m.expire now) := by
  have hdriven := hm.driven.expire now
  unfold Memoir.expire
  split
  next hsilent =>
    have hfresh : m.guest.expire now =
        { m.guest.collect.emit .timedOut with channel := .fresh m.guest.server now } := by
      rw [Guest.expire, if_pos hsilent]
    rw [hfresh] at hdriven ⊢
    refine ⟨⟨hdriven, hm.server_eq, ⟨.nil, Nat.zero_le _, fun _ hx => nomatch hx⟩, fun _ _ => rfl,
      ?_, fun _ => rfl, ?_⟩, fun hrejected => ⟨hrejected, rfl⟩⟩
    · rintro (hphase | hphase) <;> cases hphase
    · exact List.forall_mem_cons.mpr ⟨⟨_, hm.orderly⟩, hm.earlier⟩
  · exact ⟨hm, fun hrejected => ⟨hrejected, rfl⟩⟩

theorem Sound.proceed (hm : m.Sound server) : Continues server m m.proceed := by
  have hdriven := hm.driven.proceed
  have hcases := m.guest.proceeds hm.driven.outbox.ring
  unfold Memoir.proceed
  generalize m.guest.proceed = g at hdriven hcases
  cases hcases with
  | same hnone hserver hphase hrejected =>
    have hbecome := hm.become hdriven hserver hphase hrejected
    refine hbecome.trans (hbecome.sound.extend rfl ?_ (List.Subset.refl _) (List.Subset.refl _))
    rw [hnone, List.append_nil, chapter_become hphase]
  | ask hone hidle hfree hserver hphase hrejected =>
    have hpresented : m.chapter.presented ++ m.guest.presents = m.guest.presents := by
      rw [hm.fresh hidle hfree, List.nil_append]
    refine hm.take hdriven hfree ?_ hserver rfl ?_ ?_ ?_ ?_ ?_
    · rw [hidle, guest_become, hphase]
      exact .ask
    · rw [hpresented, hone]
      exact Nat.le_refl _
    · rw [hpresented, hone]
      simp [Guest.request]
    · simp [hphase]
    · simp [hphase]
    · simp [hrejected, hfree]
  | play hnone hadmitted hserver hphase hrejected =>
    have hfree := hm.not_rejected (by simp [hadmitted])
    have hpresented : m.chapter.presented ++ m.guest.presents = m.chapter.presented := by
      rw [hnone, List.append_nil]
    refine hm.take hdriven hfree ?_ hserver rfl ?_ ?_ ?_ (fun _ => hm.approved (.inl hadmitted)) ?_
    · rw [hadmitted, guest_become, hphase]
      exact .play
    · rw [hpresented]
      exact hm.orderly.presented_le
    · rw [hpresented]
      exact hm.orderly.credentials
    · simp [hphase]
    · simp [hrejected, hfree]

theorem Sound.absorb (hm : m.Sound server) (inflow : Inflow) (now : Time) :
    Continues server m (m.absorb inflow now) := by
  have hsettled := hm.settle
  obtain ⟨hheard, hdeliveries, -⟩ := hsettled.sound.hearAll now inflow.datagrams
  simp only [Memoir.absorb]
  generalize Memoir.hearAll now _ inflow.datagrams = received at hheard hdeliveries ⊢
  have hnoted := hheard.sound.noteFailure inflow.failure
  have hhandled := hnoted.sound.handleAll hdeliveries
  have hexpired := hhandled.sound.expire now
  exact (hsettled.trans hheard).trans
    ((hnoted.trans hhandled).trans (hexpired.trans hexpired.sound.proceed))

theorem Sound.close (hm : m.Sound server) :
    Continues server m (m.become { m.guest.collect with ticks := m.guest.ticks + 1 }) :=
  hm.become (Channel.Driven.aside hm.driven rfl) rfl rfl rfl

theorem Sound.tick (hm : m.Sound server) (net : σ) (now : Time) :
    Continues server m (m.tick net now) := by
  have habsorbed := hm.absorb (Transport.receive net Packet.maxSize).1 now
  have hsent := habsorbed.sound.transmit (Transport.receive net Packet.maxSize).2 now
  exact (habsorbed.trans hsent).trans hsent.sound.close

theorem Sound.step (hm : m.Sound server) (mv : GuestMove σ) : Continues server m (m.step mv) := by
  cases mv with
  | use u => exact hm.use u
  | tick net now => exact hm.tick net now

theorem run_append (g : Guest) (moves more : List (GuestMove σ)) :
    run g (moves ++ more) = more.foldl Memoir.step (run g moves) :=
  List.foldl_append

theorem Sound.steps (hm : m.Sound server) (moves : List (GuestMove σ)) :
    Continues server m (moves.foldl Memoir.step m) := by
  induction moves generalizing m with
  | nil => exact ⟨hm, fun hrejected => ⟨hrejected, rfl⟩⟩
  | cons mv rest ih =>
    have hfirst := hm.step mv
    exact hfirst.trans (ih hfirst.sound)

theorem sound_make {config : GuestConfig} (hmake : Guest.make server config now = .ok g) :
    ({ guest := g } : Memoir).Sound server := by
  have hdriven := Guest.driven_make hmake
  obtain ⟨credentials, rfl⟩ := Guest.make_ok hmake
  refine ⟨hdriven, rfl, ⟨.nil, Nat.zero_le _, fun _ hx => nomatch hx⟩, fun _ _ => rfl, ?_,
    fun _ => rfl, fun _ hc => nomatch hc⟩
  rintro (hphase | hphase) <;> cases hphase

/-- Whatever is done with a guest and whatever comes in, and whenever: on each of
its channels the phases are steps of a conversation, and all that the guest queues
to proceed are its credentials, at most once. It plays only if on its channel a
datagram of the server completed a verdict of one byte other than zero, which it
handled while its credentials were under review. Once rejected it remains so, its
phase is idle and it never queues anything to proceed again. -/
theorem run_in_order {config : GuestConfig} (hmake : Guest.make server config now = .ok g)
    (moves : List (GuestMove σ)) :
    let m := run g moves
    m.guest = moves.foldl Guest.move g ∧
      (m.chapter.Orderly m.guest.phase ∧ ∀ c ∈ m.earlier, ∃ phase, c.Orderly phase) ∧
      (m.guest.phase = .playing → m.chapter.Approved server) ∧
      (m.guest.rejected = true → ∀ more : List (GuestMove σ),
        (run g (moves ++ more)).guest.rejected = true ∧
          (run g (moves ++ more)).guest.phase = .idle ∧
          (run g (moves ++ more)).presentations = m.presentations) := by
  intro m
  have hsound : m.Sound server := ((sound_make hmake).steps moves).sound
  refine ⟨guest_run g moves, ⟨hsound.orderly, hsound.earlier⟩, fun hphase =>
      hsound.approved (.inr hphase), ?_⟩
  intro hrejected more
  have hlater := hsound.steps more
  rw [run_append]
  obtain ⟨hstill, hsame⟩ := hlater.final hrejected
  exact ⟨hstill, hlater.sound.rejected hstill, hsame⟩

/-- The server approves, or it rejects and then stays silent for ten seconds. -/
theorem run_in_order_of_verdict :
    let server : Address := { ip := .v4 0x7F000001, port := Packet.defaultPort }
    let verdict (flag : UInt8) : Datagram :=
      { source := server
        bytes := Packet.encode
          { header :=
            { protocol := Packet.protocolId, count := 1, sequence := 0, ack := 0, ackBits := 0 }
            messages := [⟨.verdict, true, 0, 0, [flag]⟩] } |>.toOption.getD [] }
    let tick (now : Time) (datagrams : List Datagram) : GuestMove Script :=
      .tick { incoming := datagrams.map (0, ·) } now
    let approved : List (GuestMove Script) := [tick 0 [], tick 1 [verdict 7]]
    let refused : List (GuestMove Script) := [tick 0 [], tick 1 [verdict 0]]
    ∃ g, Guest.make server {} 0 = .ok g ∧
      ((run g approved).guest.phase = .playing ∧ (run g approved).chapter.Approved server ∧
        (run g approved).chapter.presented.length = 1) ∧
      (run g refused).guest.rejected = true ∧
      (run g (refused ++ [tick (Interval.seconds 10) []])).earlier.length = 1 ∧
      (run g (refused ++ [tick (Interval.seconds 10) []])).presentations =
        (run g refused).presentations := by
  intro server verdict tick approved refused
  let g : Guest :=
    { config := {}, credentials := { user := "anonymous", password := "1234" },
      channel := .fresh server 0 }
  have hmake : Guest.make server {} 0 = .ok g := rfl
  obtain ⟨-, -, happroved, -⟩ := run_in_order hmake approved
  obtain ⟨-, -, -, hfinal⟩ := run_in_order hmake refused
  have hplaying : (run g approved).guest.phase = .playing := by decide +kernel
  have hrejected : (run g refused).guest.rejected = true := by decide +kernel
  obtain ⟨-, -, hsame⟩ := hfinal hrejected [tick (Interval.seconds 10) []]
  have hpresented : (run g approved).chapter.presented.length = 1 := by decide +kernel
  exact ⟨g, hmake, ⟨hplaying, happroved hplaying, hpresented⟩, hrejected, by decide +kernel, hsame⟩

end

end Memoir

end Courier
