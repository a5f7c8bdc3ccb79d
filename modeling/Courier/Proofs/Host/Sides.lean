import Courier.Proofs.Host

/-!
# What a host shows to one peer

To a peer a host shows the peer's channel, and its owner gets events about the
peer. What a host does about other peers cannot be seen there (`Unseen`), and two
hosts that look alike still do so when both do the same about the peer (`Agree`),
if their doormen give the same answers.
-/

namespace Courier

/-- The events about a peer. -/
def HostEvent.about (peer : Address) (events : List HostEvent) : List HostEvent :=
  events.filter (·.peer? == some peer)

/-- Whomever the doorman was asked about before, these are the answers. -/
def Doorman.Steady {δ : Type} [Doorman δ] (answer : Address → Credentials → Bool)
    (door : δ) : Prop :=
  ∀ asked : List (Address × Credentials), ∀ peer credentials,
    (Doorman.admits (asked.foldl (fun door x => (Doorman.admits door x.1 x.2).2) door) peer
      credentials).1 =
      answer peer credentials

theorem Doorman.Steady.next {δ : Type} [Doorman δ] {answer : Address → Credentials → Bool}
    {door : δ} (h : Doorman.Steady answer door) (peer : Address) (credentials : Credentials) :
    Doorman.Steady answer (Doorman.admits door peer credentials).2 :=
  fun asked => h ((peer, credentials) :: asked)

def BanList.answer (list : BanList) (_ : Address) (credentials : Credentials) : Bool :=
  !list.users.contains credentials.user

theorem BanList.steady (list : BanList) : Doorman.Steady list.answer list := by
  intro asked peer credentials
  induction asked generalizing list with
  | nil => rfl
  | cons x rest ih => exact ih (Doorman.admits list x.1 x.2).2

namespace Roster

theorem find?_map (r : Roster) {f : Channel → Channel} (hf : ∀ c, (f c).peer = c.peer)
    (peer : Address) : (r.map f).find? peer = (r.find? peer).map f := by
  have hsame : (fun c : Channel => c.peer == peer) ∘ f = fun c => c.peer == peer :=
    funext fun c => by rw [Function.comp_apply, hf]
  rw [find?, map, List.find?_map, hsame]
  rfl

theorem Distinct.filter_peer {r : Roster} (h : r.Distinct) (peer : Address) :
    r.channels.filter (·.peer == peer) = (r.find? peer).toList := by
  obtain ⟨_, _, channels⟩ := r
  simp only [Distinct] at h
  simp only [find?]
  induction channels with
  | nil => rfl
  | cons c rest ih =>
    obtain ⟨hc, hrest⟩ := List.nodup_cons.mp h
    by_cases hp : c.peer = peer
    · have hnone : rest.filter (·.peer == peer) = [] := by
        refine List.filter_eq_nil_iff.mpr fun d hd hsame => hc ?_
        exact List.mem_map.mpr ⟨d, hd, (beq_iff_eq.mp hsame).trans hp.symm⟩
      simp [hp, hnone]
    · simp [hp, ih hrest]

theorem Distinct.find?_of_mem {r : Roster} {c : Channel} (h : r.Distinct) (hc : c ∈ r.channels) :
    r.find? c.peer = some c := by
  have hmem : c ∈ (r.find? c.peer).toList := by
    rw [← h.filter_peer]
    simpa using hc
  simpa using hmem

theorem Distinct.filter_flatMap {β : Type} {r : Roster} (h : r.Distinct) {peer : Address}
    {f : Channel → List β} {p : β → Bool} (hp : ∀ c, ∀ x ∈ f c, p x = (c.peer == peer)) :
    (r.channels.flatMap f).filter p = (r.find? peer).toList.flatMap f := by
  rw [← h.filter_peer]
  induction r.channels with
  | nil => rfl
  | cons c rest ih =>
    rw [List.flatMap_cons, List.filter_append, ih]
    cases hc : c.peer == peer with
    | true =>
      have hall : (f c).filter p = f c := List.filter_eq_self.mpr fun x hx => by rw [hp c x hx, hc]
      simp [hc, hall]
    | false =>
      have hnone : (f c).filter p = [] :=
        List.filter_eq_nil_iff.mpr fun x hx => by simp [hp c x hx, hc]
      simp [hc, hnone]

end Roster

namespace Host

open HostEvent (about)

variable {δ : Type}

def settled (h : Host δ) : Host δ := { h with roster := h.roster.map fun c => c.settle.2 }

/-- The change from `h` to `k` cannot be seen by the peer. -/
structure Unseen (peer : Address) (h k : Host δ) : Prop where
  channel_eq : k.channel? peer = h.channel? peer
  about_eq : about peer k.events = about peer h.events
  timeout_eq : k.roster.timeout = h.roster.timeout

/-- Two hosts look alike to the peer, counting the events that were taken from
them before. -/
structure Agree (peer : Address) (past past' : List HostEvent) (h h' : Host δ) : Prop where
  channel_eq : h.channel? peer = h'.channel? peer
  about_eq : about peer (past ++ h.events) = about peer (past' ++ h'.events)
  timeout_eq : h.roster.timeout = h'.roster.timeout

section
variable {peer other : Address} {past past' : List HostEvent} {h h' k k' : Host δ} {c : Channel}
  {e : HostEvent} {d : Datagram} {now : Time}

theorem channel?_setChannel (h : Host δ) (c : Channel) (peer : Address) :
    (h.setChannel c).channel? peer =
    if peer = c.peer then (h.channel? peer).map fun _ => c else h.channel? peer :=
  h.roster.find?_set c peer

theorem about_append (first second : List HostEvent) :
    about peer (first ++ second) = about peer first ++ about peer second :=
  List.filter_append first second

-- ---------------------------------------------------------------------------
-- Doing something about others
-- ---------------------------------------------------------------------------

theorem unseen_self (h : Host δ) : Unseen peer h h := ⟨rfl, rfl, rfl⟩

theorem Unseen.trans {l : Host δ} (hk : Unseen peer h k) (hl : Unseen peer k l) : Unseen peer h l :=
  ⟨hl.channel_eq.trans hk.channel_eq, hl.about_eq.trans hk.about_eq,
    hl.timeout_eq.trans hk.timeout_eq⟩

theorem Unseen.emit (hk : Unseen peer h k) (he : e.peer? ≠ some peer) : Unseen peer h (k.emit e) :=
  hk.trans ⟨rfl, by simp [Host.emit, about, he], rfl⟩

theorem Unseen.set (hk : Unseen peer h k) (hc : c.peer ≠ peer) : Unseen peer h (k.setChannel c) :=
  hk.trans ⟨by rw [channel?_setChannel, if_neg hc.symm], rfl, rfl⟩

theorem Unseen.doorman (hk : Unseen peer h k) (door : δ) :
    Unseen peer h { k with doorman := door } :=
  hk.trans ⟨rfl, rfl, rfl⟩

theorem unseen_turnAway (hne : other ≠ peer) (reason : String) :
    Unseen peer h (h.turnAway other reason now) := by
  simp only [turnAway]
  split
  · exact h.unseen_self
  · exact .emit ⟨rfl, rfl, rfl⟩ (by simpa [HostEvent.peer?] using hne)

theorem unseen_hear (hne : d.source ≠ peer) : Unseen peer h (h.hear d now).2 := by
  simp only [hear]
  cases Packet.decode d.bytes with
  | error e =>
    cases hc : h.channel? d.source with
    | none => exact ⟨rfl, rfl, rfl⟩
    | some c => exact h.unseen_self.set (by rw [← Roster.peer_of_find? hc] at hne; exact hne)
  | ok packet =>
    rcases h.roster.obtain?_cases d.source now with ⟨e, hobtain⟩ | ⟨c, hc, hobtain⟩ | ⟨-, hobtain⟩
    · simp only [hobtain]
      exact unseen_turnAway hne _
    · have hpeer : (c.receive packet d.bytes.length now).2.peer ≠ peer := by
        rw [(c.quiet_receive packet _ now).peer_eq, Roster.peer_of_find? hc]
        exact hne
      simp only [hobtain]
      exact h.unseen_self.set hpeer
    · have hpeer :
          ((Channel.fresh d.source now).receive packet d.bytes.length now).2.peer ≠ peer := by
        rw [(Channel.quiet_receive _ packet _ now).peer_eq]
        exact hne
      simp only [hobtain]
      refine .set (.emit ⟨?_, rfl, rfl⟩ (by simpa [HostEvent.peer?] using hne)) hpeer
      rw [channel?, Roster.find?_append_fresh, if_neg hne.symm, Option.or_none]
      rfl

theorem unseen_send (hne : other ≠ peer) (kind : Kind) (critical : Bool) (payload : Bytes) :
    Unseen peer h (h.send other kind critical payload).2 := by
  rcases h.send_cases other kind critical payload with hsend | ⟨c, hc, hsend⟩
  · rw [hsend]
    exact h.unseen_self
  · rw [hsend]
    refine h.unseen_self.set ?_
    rw [Channel.peer_enqueue, Roster.peer_of_find? hc]
    exact hne

section
variable [Doorman δ]

theorem unseen_review (hne : c.peer ≠ peer) (credentials : Credentials) :
    Unseen peer h (h.review c credentials) := by
  simp only [review]
  split
  · exact (h.unseen_self.doorman _).set (by simpa using hne)
  · exact ((h.unseen_self.doorman _).set (by simpa using hne)).emit
      (by simpa [HostEvent.peer?] using hne)

theorem unseen_handle (hne : other ≠ peer) (d : Delivery) : Unseen peer h (h.handle other d) := by
  rw [handle]
  cases hc : h.channel? other with
  | none => exact h.unseen_self
  | some c =>
    have hpeer : c.peer ≠ peer := by rwa [Roster.peer_of_find? hc]
    have hevent : some other ≠ some peer := by simpa using hne
    dsimp only
    split
    · split
      · split
        · exact h.unseen_self.emit hevent
        · exact unseen_review hpeer _
      · exact h.unseen_self
    · split
      · exact h.unseen_self.emit hevent
      · split
        · exact (h.unseen_self.set (by simpa using hpeer)).emit hevent
        · exact h.unseen_self

end

-- ---------------------------------------------------------------------------
-- Doing the same about the peer
-- ---------------------------------------------------------------------------

theorem Agree.symm (hh : Agree peer past past' h h') : Agree peer past' past h' h :=
  ⟨hh.channel_eq.symm, hh.about_eq.symm, hh.timeout_eq.symm⟩

theorem Agree.left (hh : Agree peer past past' h h') (hk : Unseen peer h k) :
    Agree peer past past' k h' := by
  refine ⟨hk.channel_eq.trans hh.channel_eq, ?_, hk.timeout_eq.trans hh.timeout_eq⟩
  rw [← hh.about_eq, about_append, about_append, hk.about_eq]

theorem Agree.right (hh : Agree peer past past' h h') (hk : Unseen peer h' k) :
    Agree peer past past' h k :=
  (hh.symm.left hk).symm

theorem Agree.emit (hh : Agree peer past past' h h') (e : HostEvent) :
    Agree peer past past' (h.emit e) (h'.emit e) := by
  refine ⟨hh.channel_eq, ?_, hh.timeout_eq⟩
  simp only [Host.emit, ← List.append_assoc]
  rw [about_append _ [e], about_append _ [e], hh.about_eq]

theorem Agree.set (hh : Agree peer past past' h h') (c : Channel) :
    Agree peer past past' (h.setChannel c) (h'.setChannel c) := by
  refine ⟨?_, hh.about_eq, hh.timeout_eq⟩
  rw [channel?_setChannel, channel?_setChannel, hh.channel_eq]

theorem Agree.doorman (hh : Agree peer past past' h h') (door door' : δ) :
    Agree peer past past' { h with doorman := door } { h' with doorman := door' } :=
  ⟨hh.channel_eq, hh.about_eq, hh.timeout_eq⟩

theorem Agree.map (hh : Agree peer past past' h h') {f : Channel → Channel}
    (hf : ∀ c, (f c).peer = c.peer) :
    Agree peer past past' { h with roster := h.roster.map f }
      { h' with roster := h'.roster.map f } := by
  refine ⟨?_, hh.about_eq, hh.timeout_eq⟩
  show (h.roster.map f).find? peer = (h'.roster.map f).find? peer
  rw [Roster.find?_map _ hf, Roster.find?_map _ hf]
  exact congrArg (Option.map f) hh.channel_eq

theorem Agree.grow (hh : Agree peer past past' h h') (source : Address) (now : Time) :
    Agree peer past past'
      { h with roster := { h.roster with channels := h.roster.channels ++ [.fresh source now] } }
      { h' with roster := { h'.roster with channels := h'.roster.channels ++ [.fresh source now] }
        } := by
  refine ⟨?_, hh.about_eq, hh.timeout_eq⟩
  have hsame : h.roster.find? peer = h'.roster.find? peer := hh.channel_eq
  show Roster.find? _ peer = Roster.find? _ peer
  rw [Roster.find?_append_fresh, Roster.find?_append_fresh, hsame]

def HasRoomFor (peer : Address) (h : Host δ) : Prop :=
  h.channel? peer = none → h.roster.size < h.roster.capacity

instance (peer : Address) (h : Host δ) : Decidable (h.HasRoomFor peer) :=
  inferInstanceAs (Decidable (_ → _))

theorem HasRoomFor.obtain? (hroom : h.HasRoomFor peer) (now : Time) :
    (∃ c, h.channel? peer = some c ∧ h.roster.obtain? peer now = (.ok (c, false), h.roster)) ∨
      (h.channel? peer = none ∧ h.roster.obtain? peer now = (.ok (.fresh peer now, true),
        { h.roster with channels := h.roster.channels ++ [.fresh peer now] })) := by
  simp only [Roster.obtain?]
  cases hc : h.roster.find? peer with
  | some c => exact .inl ⟨c, hc, rfl⟩
  | none =>
    right
    have hlt := hroom hc
    simp only [if_neg (Nat.not_le.mpr hlt)]
    exact ⟨hc, trivial⟩

theorem Agree.hear (hh : Agree peer past past' h h') (hsource : d.source = peer)
    (hroom : (Packet.decode d.bytes).isOk = true → h.HasRoomFor peer)
    (hroom' : (Packet.decode d.bytes).isOk = true → h'.HasRoomFor peer) :
    (h.hear d now).1 = (h'.hear d now).1 ∧
      Agree peer past past' (h.hear d now).2 (h'.hear d now).2 := by
  subst hsource
  have hsame := hh.channel_eq
  simp only [Host.hear]
  cases hdecode : Packet.decode d.bytes with
  | error e =>
    cases hc : h.channel? d.source with
    | none =>
      rw [hc] at hsame
      simp only [← hsame]
      exact ⟨trivial, hh.channel_eq, hh.about_eq, hh.timeout_eq⟩
    | some c =>
      rw [hc] at hsame
      simp only [← hsame]
      exact ⟨trivial, hh.set _⟩
  | ok packet =>
    have hroom := hroom (by rw [hdecode]; rfl)
    have hroom' := hroom' (by rw [hdecode]; rfl)
    rcases hroom.obtain? now with ⟨c, hc, hobtain⟩ | ⟨hnone, hobtain⟩
    · rcases hroom'.obtain? now with ⟨c', hc', hobtain'⟩ | ⟨hnone', -⟩
      · obtain rfl : c = c' := Option.some.inj (hc.symm.trans (hsame.trans hc'))
        simp only [hobtain, hobtain']
        exact ⟨trivial, hh.set _⟩
      · rw [hc, hnone'] at hsame
        cases hsame
    · rcases hroom'.obtain? now with ⟨c', hc', -⟩ | ⟨hnone', hobtain'⟩
      · rw [hnone, hc'] at hsame
        cases hsame
      · simp only [hobtain, hobtain', if_true]
        exact ⟨trivial, ((hh.grow d.source now).emit _).set _⟩

theorem Agree.send (hh : Agree peer past past' h h') (kind : Kind) (critical : Bool)
    (payload : Bytes) :
    Agree peer past past' (h.send peer kind critical payload).2
      (h'.send peer kind critical payload).2 := by
  simp only [Host.send, ← hh.channel_eq]
  cases h.channel? peer with
  | none => exact hh
  | some c => exact hh.set _

theorem Agree.broadcast (hh : Agree peer past past' h h') (kind : Kind) (critical : Bool)
    (payload : Bytes) :
    Agree peer past past' (h.broadcast kind critical payload).2
      (h'.broadcast kind critical payload).2 := by
  simp only [Host.broadcast, List.map_map]
  refine hh.map fun c => ?_
  simp only [Function.comp_apply]
  split
  · exact c.peer_enqueue kind critical payload
  · rfl

section
variable [Doorman δ] {answer : Address → Credentials → Bool}

theorem Agree.review (hh : Agree peer past past' h h') (hs : Doorman.Steady answer h.doorman)
    (hs' : Doorman.Steady answer h'.doorman) (c : Channel) (credentials : Credentials) :
    Agree peer past past' (h.review c credentials) (h'.review c credentials) := by
  have hanswer : ∀ p, (Doorman.admits h.doorman p credentials).1 =
      (Doorman.admits h'.doorman p credentials).1 :=
    fun p => (hs [] p credentials).trans (hs' [] p credentials).symm
  simp only [Host.review, hanswer]
  split
  · exact (hh.doorman _ _).set _
  · exact ((hh.doorman _ _).set _).emit _

theorem Agree.handle (hh : Agree peer past past' h h') (hs : Doorman.Steady answer h.doorman)
    (hs' : Doorman.Steady answer h'.doorman) (d : Delivery) :
    Agree peer past past' (h.handle peer d) (h'.handle peer d) := by
  simp only [Host.handle, ← hh.channel_eq]
  cases h.channel? peer with
  | none => exact hh
  | some c =>
    dsimp only
    split
    · split
      · split
        · exact hh.emit _
        · exact hh.review hs hs' c _
      · exact hh
    · split
      · exact hh.emit _
      · split
        · exact (hh.set _).emit _
        · exact hh

end

-- ---------------------------------------------------------------------------
-- Doing something about all peers
-- ---------------------------------------------------------------------------

theorem about_flatMap (hd : h.roster.Distinct) {f : Channel → List HostEvent}
    (hf : ∀ c, ∀ e ∈ f c, e.peer? = some c.peer) :
    about peer (h.roster.channels.flatMap f) = (h.channel? peer).toList.flatMap f :=
  hd.filter_flatMap fun c e he => by simp [hf c e he]

theorem Agree.extend (hh : Agree peer past past' h h') {new new' : List HostEvent}
    (hnew : about peer new = about peer new') :
    Agree peer past past' { h with events := h.events ++ new }
      { h' with events := h'.events ++ new' } := by
  refine ⟨hh.channel_eq, ?_, hh.timeout_eq⟩
  rw [← List.append_assoc, ← List.append_assoc, about_append _ new, about_append _ new',
    hh.about_eq, hnew]

theorem Agree.collect (hh : Agree peer past past' h h') (hd : h.roster.Distinct)
    (hd' : h'.roster.Distinct) : Agree peer past past' h.collect h'.collect := by
  have hnotices :
      ∀ c : Channel, ∀ e ∈ c.notices.map (HostEvent.notice c.peer), e.peer? = some c.peer := by
    intro c e he
    obtain ⟨n, -, rfl⟩ := List.mem_map.mp he
    rfl
  refine (hh.extend ?_).map fun c => rfl
  rw [about_flatMap hd hnotices, about_flatMap hd' hnotices, hh.channel_eq]

def farewell (h : Host δ) (now : Time) : List HostEvent :=
  h.roster.channels.flatMap fun c =>
    if c.isTimedOut now h.roster.timeout then
      c.notices.map (.notice c.peer) ++ [.timedOut c.peer]
    else []

theorem events_expire (h : Host δ) (now : Time) :
    (h.expire now).events = h.events ++ h.farewell now := by
  have hevents : (h.expire now).events = _ := events_retire_all _ (h.roster.expire now).1
  rw [hevents]
  refine congrArg (h.events ++ ·) ?_
  simp only [farewell, Roster.expire, List.partition_eq_filter_filter]
  induction h.roster.channels with
  | nil => rfl
  | cons c rest ih =>
    rw [List.filter_cons, List.flatMap_cons]
    split
    · rw [List.flatMap_cons]
      exact congrArg _ ih
    · exact ih

theorem about_farewell (hd : h.roster.Distinct) (now : Time) : about peer (h.farewell now) =
    (h.channel? peer).toList.flatMap fun c =>
      if c.isTimedOut now h.roster.timeout then
        c.notices.map (.notice c.peer) ++ [.timedOut c.peer]
      else [] := by
  refine about_flatMap hd fun c e he => ?_
  split at he
  · rcases List.mem_append.mp he with he | he
    · obtain ⟨n, -, rfl⟩ := List.mem_map.mp he
      rfl
    · rw [List.mem_singleton.mp he]
      rfl
  · cases he

theorem Agree.expire (hh : Agree peer past past' h h') (hd : h.roster.Distinct)
    (hd' : h'.roster.Distinct) (now : Time) :
    Agree peer past past' (h.expire now) (h'.expire now) := by
  have hfarewell : about peer (h.farewell now) = about peer (h'.farewell now) := by
    rw [about_farewell hd, about_farewell hd', hh.channel_eq, hh.timeout_eq]
  obtain ⟨-, habout, -⟩ := hh.extend hfarewell
  refine ⟨?_, ?_, ?_⟩
  · show (h.expire now).roster.find? peer = (h'.expire now).roster.find? peer
    rw [(h.expire_spec now).1, (h'.expire_spec now).1, hd.find?_expire, hd'.find?_expire,
      hh.timeout_eq]
    exact congrArg (Option.filter _) hh.channel_eq
  · rwa [events_expire, events_expire]
  · rw [(h.expire_spec now).1, (h'.expire_spec now).1]
    exact hh.timeout_eq

end

-- ---------------------------------------------------------------------------
-- Hosts at work
-- ---------------------------------------------------------------------------

theorem doorman_hear (h : Host δ) (d : Datagram) (now : Time) :
    (h.hear d now).2.doorman = h.doorman := by
  simp only [hear]
  split
  · split
    · rfl
    · rfl
  · split
    · simp only [turnAway]
      split
      · rfl
      · rfl
    · split
      · rfl
      · rfl

theorem doorman_retire_all (h : Host δ) (expired : List Channel) :
    (expired.foldl retire h).doorman = h.doorman := by
  induction expired generalizing h with
  | nil => rfl
  | cons c rest ih => exact ih _

section
variable [Doorman δ] {answer : Address → Credentials → Bool} {h : Host δ}

structure Proper (answer : Address → Credentials → Bool) (h : Host δ) : Prop where
  distinct : h.roster.Distinct
  steady : Doorman.Steady answer h.doorman

theorem Proper.hear (hp : h.Proper answer) (d : Datagram) (now : Time) :
    (h.hear d now).2.Proper answer where
  distinct := act_distinct hp.distinct (.hear d now : HostMove Script)
  steady := by
    rw [doorman_hear]
    exact hp.steady

theorem Proper.handle (hp : h.Proper answer) (peer : Address) (d : Delivery) :
    (h.handle peer d).Proper answer where
  distinct := act_distinct hp.distinct (.handle peer d : HostMove Script)
  steady := by
    rw [Host.handle]
    split
    · exact hp.steady
    · split
      · split
        · split
          · exact hp.steady
          · simp only [review]
            split
            · exact hp.steady.next _ _
            · exact hp.steady.next _ _
        · exact hp.steady
      · split
        · exact hp.steady
        · split
          · exact hp.steady
          · exact hp.steady

theorem Proper.expire (hp : h.Proper answer) (now : Time) : (h.expire now).Proper answer where
  distinct := act_distinct hp.distinct (.expire now : HostMove Script)
  steady := by
    simp only [Host.expire, doorman_retire_all]
    exact hp.steady

theorem Proper.map (hp : h.Proper answer) {f : Channel → Channel} (hf : ∀ c, (f c).peer = c.peer) :
    ({ h with roster := h.roster.map f } : Host δ).Proper answer where
  distinct :=
    hp.distinct.forall₂ (R := fun c c' => c'.peer = c.peer) (forall₂_map hf _) fun _ _ hc => hc
  steady := hp.steady

theorem Proper.send (hp : h.Proper answer) (peer : Address) (kind : Kind) (critical : Bool)
    (payload : Bytes) : (h.send peer kind critical payload).2.Proper answer where
  distinct := act_distinct hp.distinct (.send peer kind critical payload : HostMove Script)
  steady := by
    rcases h.send_cases peer kind critical payload with hsend | ⟨c, -, hsend⟩
    · rw [hsend]
      exact hp.steady
    · rw [hsend]
      exact hp.steady

theorem Proper.broadcast (hp : h.Proper answer) (kind : Kind) (critical : Bool) (payload : Bytes) :
    (h.broadcast kind critical payload).2.Proper answer where
  distinct := act_distinct hp.distinct (.broadcast kind critical payload : HostMove Script)
  steady := hp.steady

end

end Host

end Courier
