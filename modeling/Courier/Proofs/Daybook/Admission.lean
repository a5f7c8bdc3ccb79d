import Courier.Proofs.Daybook

/-!
# Only peers that were admitted are heard

A host passes on what a peer sent only after the doorman admitted the peer, and
each channel goes through its phases step by step. The invariant is about every
peer at once: deliveries of many peers are taken in before any is handled.
-/

namespace Courier.Daybook

variable {σ δ : Type}

/-- A datagram of the peer completed the payload. -/
def Delivered (peer : Address) (d : Delivery) (entries : List (Entry σ δ)) : Prop :=
  ∃ e ∈ entries, ∃ dg now, e.move = .hear dg now ∧ dg.source = peer ∧ d ∈ (e.host.hear dg now).1

/-- Credentials that the peer sent earlier are handled, and the doorman answers. -/
structure Review [Doorman δ] (peer : Address) (answer : Bool) (earlier : List (Entry σ δ))
    (e : Entry σ δ) (d : Delivery) (credentials : Credentials) : Prop where
  delivered : Delivered peer d earlier
  handled : e.move = .handle peer d
  kind_eq : d.kind = .credentials
  decodes : Credentials.decode d.data = .ok credentials
  idle : (e.host.channel? peer).map (·.phase) = some .idle
  answers : (Doorman.admits e.host.doorman peer credentials).1 = answer

/-- The doorman gave this answer to credentials of the peer. -/
def Answered [Doorman δ] (peer : Address) (entries : List (Entry σ δ)) (answer : Bool) : Prop :=
  ∃ earlier e later d credentials, entries = earlier ++ e :: later ∧
    Review peer answer earlier e d credentials

section
variable {entries : List (Entry σ δ)} {peer : Address} {d : Delivery}

theorem Delivered.concat (hd : Delivered peer d entries) (e : Entry σ δ) :
    Delivered peer d (entries ++ [e]) := by
  obtain ⟨e', he', hmove⟩ := hd
  exact ⟨e', List.mem_append_left _ he', hmove⟩

theorem Answered.append [Doorman δ] {answer : Bool} (ha : Answered peer entries answer)
    (added : List (Entry σ δ)) : Answered peer (entries ++ added) answer := by
  obtain ⟨earlier, e, later, d, credentials, rfl, hreview⟩ := ha
  exact ⟨earlier, e, later ++ added, d, credentials, by simp, hreview⟩

end

variable [Transport σ] [Doorman δ]

/-- What the history says about a peer with or without a channel. -/
def Accounted (peer : Address) (entries : List (Entry σ δ)) : Option Channel → Prop
  | none => since peer entries = []
  | some c => Phase.Path .idle (history peer entries) c.phase ∧
    (c.phase = .admitted ∨ c.phase = .playing → Answered peer (since peer entries) true)

/-- A move that passes something on came after the peer was admitted, and it leaves
each channel in a phase that can be reached step by step. -/
structure Guarded (before : List (Entry σ δ)) (e : Entry σ δ) : Prop where
  messages : ∀ peer d, .message peer d ∈ e.emitted → Answered peer (since peer before) true
  phases : ∀ peer c, e.after.channel? peer = some c →
    Phase.Path .idle (history peer (before ++ [e])) c.phase

/-- Each peer is accounted for, and each event that waits was emitted by a guarded move. -/
structure Sound (b : Daybook σ δ) : Prop where
  distinct : b.host.roster.Distinct
  accounted : ∀ peer, Accounted peer b.entries (b.host.channel? peer)
  emitted : ∀ x ∈ b.host.events, ∃ e ∈ b.entries, x ∈ e.emitted
  guarded : ∀ before e after, b.entries = before ++ e :: after → Guarded before e

section
variable {b : Daybook σ δ} {entries : List (Entry σ δ)} {e : Entry σ δ} {h : Host δ}
  {m : HostMove σ} {peer : Address} {x y : Option Channel}

/-- One case for each fate of a channel. -/
theorem Accounted.step (hx : h.channel? peer = x) (hy : (h.act m).channel? peer = y)
    (hfate : Host.Fate h peer m x y) (ha : Accounted peer entries x)
    (hdelivered : ∀ d, m = .handle peer d → Delivered peer d (since peer entries)) :
    Accounted peer (entries ++ [{ host := h, move := m }]) y := by
  have hhistory (hsome : y.isSome) :
      history peer (entries ++ [{ host := h, move := m }]) =
        history peer entries ++ changesOf x y := by
    subst hx hy
    exact history_concat hsome
  have hsince (hsome : y.isSome) :
      since peer (entries ++ [{ host := h, move := m }]) =
        since peer entries ++ [{ host := h, move := m }] := by
    subst hy
    exact since_concat hsome
  cases hfate with
  | absent => exact since_concat_of_none hy
  | removed => exact since_concat_of_none hy
  | created _ hphase hchanges =>
    refine ⟨?_, by simp [hphase]⟩
    rw [hhistory rfl, history, show since peer entries = [] from ha, changesOf, hchanges, hphase]
    exact .nil
  | kept hphase hchanges =>
    rw [Accounted, hhistory rfl, changesOf, hchanges, List.append_nil, hphase, hsince rfl]
    exact ⟨ha.1, fun hp => (ha.2 hp).append _⟩
  | @reviewed d credentials c c' hkind hdecode hphase hphase' hchanges =>
    obtain ⟨hpath, -⟩ := ha
    rw [hphase] at hpath
    rw [Accounted, hhistory rfl, changesOf, hchanges, hsince rfl]
    cases hadmits : (Doorman.admits h.doorman peer credentials).1 with
    | false =>
      rw [hadmits, if_neg Bool.false_ne_true] at hphase'
      rw [hphase']
      exact ⟨hpath.append (.cons .ask (.cons .refuse .nil)), by simp⟩
    | true =>
      rw [hadmits, if_pos rfl] at hphase'
      rw [hphase']
      have hreview : Review peer true (since peer entries)
          { host := h, move := .handle peer d } d credentials :=
        { delivered := hdelivered d rfl
          handled := rfl
          kind_eq := hkind
          decodes := hdecode
          idle := by rw [hx, Option.map_some, hphase]
          answers := hadmits }
      exact ⟨hpath.append (.cons .ask (.cons .grant .nil)),
        fun _ => ⟨_, _, [], d, credentials, rfl, hreview⟩⟩
  | joined hphase hphase' hchanges =>
    obtain ⟨hpath, hadmitted⟩ := ha
    rw [hphase] at hpath hadmitted
    rw [Accounted, hhistory rfl, changesOf, hchanges, hsince rfl, hphase']
    exact ⟨hpath.append (.cons .play .nil), fun _ => (hadmitted (.inl rfl)).append _⟩

theorem Sound.emitted_record (hb : b.Sound) (m : HostMove σ) :
    ∀ x ∈ (b.record m).host.events, ∃ e ∈ (b.record m).entries, x ∈ e.emitted := by
  intro x hx
  by_cases htake : m = .takeEvents
  · subst htake
    cases hx
  · obtain ⟨new, hnew⟩ := b.host.act_events htake
    rw [host_record, ← hnew, List.mem_append] at hx
    rcases hx with hold | hx
    · obtain ⟨e, he, hemitted⟩ := hb.emitted x hold
      exact ⟨e, List.mem_append_left _ he, hemitted⟩
    · refine ⟨_, List.mem_append_right _ (List.mem_singleton_self _), ?_⟩
      rwa [Entry.emitted, Entry.after, ← hnew, List.drop_left]

theorem Sound.record (hb : b.Sound)
    (hdelivered : ∀ peer d, m = .handle peer d → Delivered peer d (since peer b.entries)) :
    (b.record m).Sound := by
  have haccounted (peer : Address) :
      Accounted peer (b.record m).entries ((b.record m).host.channel? peer) :=
    .step rfl rfl (Host.act_fate hb.distinct m peer) (hb.accounted peer) (hdelivered peer)
  refine ⟨Host.act_distinct hb.distinct m, haccounted, hb.emitted_record m,
    fun before e after hentries => ?_⟩
  rcases List.eq_nil_or_concat after with rfl | ⟨later, last, rfl⟩
  · obtain ⟨rfl, hlast⟩ := List.append_inj' hentries rfl
    obtain rfl : { host := b.host, move := m } = e := by simpa using hlast
    refine ⟨fun peer d hmem => ?_, fun peer c hc => ?_⟩
    · obtain ⟨-, c, hc, hphase⟩ := Host.act_emits hmem
      have ha := hb.accounted peer
      rw [hc] at ha
      exact ha.2 hphase
    · have ha := haccounted peer
      rw [show (b.record m).host.channel? peer = some c from hc] at ha
      exact ha.1
  · have hsplit :
        b.entries ++ [{ host := b.host, move := m }] = (before ++ e :: later) ++ [last] := by
      rw [← entries_record, hentries, List.concat_eq_append, List.append_assoc, List.cons_append]
    exact hb.guarded before e later (List.append_inj' hsplit rfl).1

theorem Sound.record_of_ne (hb : b.Sound) (hm : ∀ peer d, m ≠ .handle peer d) :
    (b.record m).Sound :=
  hb.record fun peer d heq => absurd heq (hm peer d)

/-- What was delivered is remembered while the peer keeps its channel. -/
theorem Sound.delivered_record {d : Delivery} (hb : b.Sound) (hm : ∀ now, m ≠ .expire now)
    (hd : Delivered peer d (since peer b.entries)) :
    Delivered peer d (since peer (b.record m).entries) := by
  have hsome : (b.host.channel? peer).isSome := by
    cases hc : b.host.channel? peer with
    | some c => rfl
    | none =>
      have hnone := hb.accounted peer
      rw [hc] at hnone
      rw [show since peer b.entries = [] from hnone] at hd
      obtain ⟨e, he, -⟩ := hd
      cases he
  rw [entries_record, since_concat (Host.channel?_act_isSome hb.distinct hm hsome)]
  exact hd.concat _

theorem delivered_hear {d : Delivery} {dg : Datagram} {now : Time}
    (hd : d ∈ (b.host.hear dg now).1) :
    Delivered dg.source d (since dg.source (b.record (.hear dg now)).entries) := by
  let e : Entry σ δ := { host := b.host, move := .hear dg now }
  have hsome : (e.after.channel? dg.source).isSome := Host.channel?_hear hd
  rw [entries_record, since_concat hsome]
  exact ⟨_, List.mem_append_right _ (List.mem_singleton_self _), dg, now, rfl, rfl, hd⟩

theorem Sound.hearAll (hb : b.Sound) (now : Time) (datagrams : List Datagram) :
    let b' := (datagrams.map (HostMove.hear · now)).foldl Daybook.record b
    b'.Sound ∧ ∀ peer d, Delivered peer d (since peer b.entries) ∨
      (peer, d) ∈ (b.host.hearAll now datagrams).1 →
      Delivered peer d (since peer b'.entries) := by
  induction datagrams generalizing b with
  | nil => exact ⟨hb, fun peer d hd => hd.elim id fun hmem => nomatch hmem⟩
  | cons dg rest ih =>
    obtain ⟨hsound, hdelivered⟩ := ih (hb.record_of_ne (m := .hear dg now) (by simp))
    refine ⟨hsound, fun peer d hd => hdelivered peer d ?_⟩
    rcases hd with hd | hmem
    · exact .inl (hb.delivered_record (by simp) hd)
    · rw [Host.hearAll, List.mem_append] at hmem
      rcases hmem with hfirst | hothers
      · obtain ⟨x, hx, heq⟩ := List.mem_map.mp hfirst
        obtain ⟨rfl, rfl⟩ := Prod.mk.inj heq
        exact .inl (delivered_hear hx)
      · exact .inr hothers

theorem Sound.handleAll (hb : b.Sound) (deliveries : List (Address × Delivery))
    (hdelivered : ∀ x ∈ deliveries, Delivered x.1 x.2 (since x.1 b.entries)) :
    ((deliveries.map fun (peer, d) => HostMove.handle peer d).foldl Daybook.record b).Sound := by
  induction deliveries generalizing b with
  | nil => exact hb
  | cons x rest ih =>
    obtain ⟨hx, hrest⟩ := List.forall_mem_cons.mp hdelivered
    refine ih (hb.record fun peer d hm => ?_) fun y hy => hb.delivered_record (by simp) (hrest y hy)
    obtain ⟨rfl, rfl⟩ := HostMove.handle.inj hm
    exact hx

theorem Sound.tick (hb : b.Sound) (net : σ) (now : Time) : (b.tick net now).Sound := by
  let inflow := (Transport.receive net Packet.maxSize).1
  obtain ⟨hheard, hdelivered⟩ :=
    (hb.record_of_ne (m := .settle) (by simp)).hearAll now inflow.datagrams
  rw [tick_eq, Host.tickMoves]
  simp only [List.cons_append, List.foldl_cons, List.foldl_append, List.foldl_nil]
  refine .record_of_ne (.record_of_ne (.record_of_ne (handleAll ?_ _ fun x hx => ?_) ?_) ?_) ?_
  · cases inflow.failure with
    | none => exact hheard
    | some text => exact hheard.record_of_ne (by simp)
  · have hx := hdelivered x.1 x.2 (.inr hx)
    cases inflow.failure with
    | none => exact hx
    | some text => exact hheard.delivered_record (by simp) hx
  · simp
  · simp
  · simp

theorem Sound.start (config : HostConfig) (doorman : δ) :
    ({ host := .make config doorman } : Daybook σ δ).Sound where
  distinct := List.nodup_nil
  accounted _ := rfl
  emitted x hx := nomatch hx
  guarded before e after hentries := by
    cases before <;> cases hentries

theorem Reachable.sound (hb : b.Reachable) : b.Sound := by
  induction hb with
  | start config doorman => exact .start config doorman
  | tick net now _ ih => exact ih.tick net now
  | act _ howners ih =>
    refine ih.record_of_ne fun peer d hm => ?_
    rw [hm] at howners
    cases howners

/-- In whatever way a host is used, what waits for its owner was emitted by one
of its moves, and a move passes on what a peer sent only if, since the channel
of the peer was created, the doorman was asked about credentials that the peer
had sent and admitted it. The phases of every channel since its creation form a
path of single steps. -/
theorem messages_only_after_approval (hb : b.Reachable) :
    (∀ x ∈ b.host.events, ∃ e ∈ b.entries, x ∈ e.emitted) ∧
      ∀ before e after, b.entries = before ++ e :: after →
        (∀ peer d, .message peer d ∈ e.emitted → Answered peer (since peer before) true) ∧
          ∀ peer c, e.after.channel? peer = some c →
            Phase.Path .idle (history peer (before ++ [e])) c.phase := by
  refine ⟨hb.sound.emitted, fun before e after hentries => ?_⟩
  have hguarded := hb.sound.guarded before e after hentries
  exact ⟨hguarded.messages, hguarded.phases⟩

end

def visitor : Address := { ip := .v4 0x0A000001, port := 4000 }

def greeting : Packet where
  header := { protocol := Packet.protocolId, count := 2, sequence := 0, ack := 0, ackBits := 0 }
  messages :=
    [⟨.credentials, true, 0, 0, Credentials.encode { user := "player", password := "1234" }⟩,
      ⟨.data, false, 1, 0, [7]⟩]

def firstVisit : Daybook Script BanList :=
  ({ host := .make {} { users := ["mallory"] } } : Daybook Script BanList).tick
    { incoming := [(0, { source := visitor, bytes := greeting.encode.toOption.getD [] })] } 0

def joining : Entry Script BanList := firstVisit.entries.get ⟨3, by decide +kernel⟩

theorem messages_only_after_approval_firstVisit :
    firstVisit.Reachable ∧
      firstVisit.entries = firstVisit.entries.take 3 ++ joining :: firstVisit.entries.drop 4 ∧
      .message visitor ⟨.data, false, 1, [7]⟩ ∈ joining.emitted ∧
      Answered visitor (since visitor (firstVisit.entries.take 3)) true ∧
      history visitor (firstVisit.entries.take 3 ++ [joining]) =
        [(.idle, .asking), (.asking, .admitted), (.admitted, .playing)] ∧
      Phase.Path .idle (history visitor (firstVisit.entries.take 3 ++ [joining])) .playing := by
  have hreachable : firstVisit.Reachable := .tick _ _ (.start _ _)
  have hentries :
      firstVisit.entries = firstVisit.entries.take 3 ++ joining :: firstVisit.entries.drop 4 := by
    rw [joining, List.get_eq_getElem, ← List.drop_eq_getElem_cons, List.take_append_drop]
  have hemitted : .message visitor ⟨.data, false, 1, [7]⟩ ∈ joining.emitted := by decide +kernel
  have hphase : (joining.after.channel? visitor).map (·.phase) = some .playing := by decide +kernel
  obtain ⟨c, hc, hplaying⟩ := Option.map_eq_some_iff.mp hphase
  obtain ⟨hadmitted, hpath⟩ := (messages_only_after_approval hreachable).2 _ _ _ hentries
  have hpath := hpath visitor c hc
  rw [hplaying] at hpath
  exact ⟨hreachable, hentries, hemitted, hadmitted visitor _ hemitted, by decide +kernel, hpath⟩

end Courier.Daybook
