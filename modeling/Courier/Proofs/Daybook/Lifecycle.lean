import Courier.Proofs.Daybook.Verdicts
import Courier.Proofs.Host.Visits

/-!
# Peers come and go

What a host tells about a peer is that it connected and timed out, in turns, and
the peer has a channel exactly if it connected last (`lifecycle`). A channel is
removed exactly when the last packet that was accepted on it is older than the
timeout; no other datagram delays that.
-/

namespace Courier

variable {σ δ : Type}

def HostMove.time? : HostMove σ → Option Time
  | .hear _ now | .expire now | .transmit _ now => some now
  | _ => none

theorem Host.time?_of_heardAt? {h : Host δ} {peer : Address} {m : HostMove σ} {t : Time}
    (ht : h.heardAt? peer m = some t) : m.time? = some t := by
  cases m with
  | hear d now =>
    simp only [heardAt?, Option.ite_none_right_eq_some] at ht
    exact ht.2
  | _ => simp [heardAt?] at ht

namespace Daybook

open HostEvent (comings)

def Entry.taken (e : Entry σ δ) : List HostEvent :=
  match e.move with
  | .takeEvents => e.host.events
  | _ => []

/-- All events, also those that wait to be taken. -/
def told (b : Daybook σ δ) : List HostEvent := b.entries.flatMap Entry.taken ++ b.host.events

def times (b : Daybook σ δ) : List Time := b.entries.filterMap (·.move.time?)

section
variable [Transport σ] [Doorman δ] {b : Daybook σ δ} {entries before after : List (Entry σ δ)}
  {e : Entry σ δ} {m : HostMove σ} {peer : Address}

/-- When packets of the peer were accepted since its channel was created. -/
def heardAt (peer : Address) (entries : List (Entry σ δ)) : List Time :=
  (since peer entries).filterMap fun e => e.host.heardAt? peer e.move

theorem heardAt_concat (h : (e.after.lastHeard? peer).isSome) :
    heardAt peer (entries ++ [e]) = heardAt peer entries ++
      (e.host.heardAt? peer e.move).toList := by
  rw [Host.lastHeard?, Option.isSome_map] at h
  rw [heardAt, since_concat h, List.filterMap_append]
  cases hheard : e.host.heardAt? peer e.move with
  | none => simp [heardAt, hheard]
  | some t => simp [heardAt, hheard]

theorem heardAt_concat_of_none (h : e.after.lastHeard? peer = none) :
    heardAt peer (entries ++ [e]) = [] := by
  rw [heardAt, since_concat_of_none (Option.map_eq_none_iff.mp h)]
  rfl

theorem pairwise_heardAt (h : (entries.filterMap (·.move.time?)).Pairwise (· ≤ ·)) :
    (heardAt peer entries).Pairwise (· ≤ ·) := by
  have hsince : (since peer entries).Sublist entries := (List.rtakeWhile_suffix _ _).sublist
  rw [List.pairwise_filterMap] at h
  rw [heardAt, List.pairwise_filterMap]
  exact (h.sublist hsince).imp fun hle s hs t ht =>
    hle s (Host.time?_of_heardAt? hs) t (Host.time?_of_heardAt? ht)

-- ---------------------------------------------------------------------------
-- Visits in a run
-- ---------------------------------------------------------------------------

theorem Run.visit (hb : b.Run) (m : HostMove σ) (peer : Address) :
    ∃ x, comings peer (b.record m).told = comings peer b.told ++ x ∧
      b.host.Visit peer m (b.host.lastHeard? peer) ((b.record m).host.lastHeard? peer) x := by
  by_cases htake : m = .takeEvents
  · subst htake
    refine ⟨[], ?_, Host.visit_of_eq rfl rfl (by simp)⟩
    simp [told, Entry.taken, Host.act, Host.takeEvents]
  · obtain ⟨x, hcomings, hvisit⟩ := Host.act_visit hb.distinct htake peer
    have htaken : Entry.taken { host := b.host, move := m } = [] := by
      cases m with
      | takeEvents => exact absurd rfl htake
      | _ => rfl
    refine ⟨x, ?_, hvisit⟩
    simp only [told, entries_record, host_record, List.flatMap_append, List.flatMap_singleton,
      htaken, List.append_nil, HostEvent.comings_append, hcomings, List.append_assoc]

/-- What was told about a peer after `n` visits that ended. -/
def visits (peer : Address) (n : Nat) (present : Bool) : List HostEvent :=
  (List.replicate n [.connected peer, .timedOut peer]).flatten ++ if present then [.connected peer]
  else []

theorem visits_succ (peer : Address) (n : Nat) :
    visits peer (n + 1) false = visits peer n true ++ [.timedOut peer] := by
  simp [visits, List.replicate_succ']

theorem getLast?_visits (peer : Address) (n : Nat) (present : Bool) :
    (visits peer n present).getLast? = some (.connected peer) ↔ present = true := by
  cases present with
  | true => simp [visits]
  | false =>
    cases n with
    | zero => simp [visits]
    | succ n => simp [visits_succ]

/-- The host knows when it last heard of the peer, and told about its visits. -/
structure Attended (peer : Address) (b : Daybook σ δ) : Prop where
  heard : b.host.lastHeard? peer = (heardAt peer b.entries).getLast?
  told : ∃ n, comings peer b.told = visits peer n (b.host.lastHeard? peer).isSome

theorem Attended.record (hp : Attended peer b) (hb : b.Run) (m : HostMove σ) :
    Attended peer (b.record m) := by
  obtain ⟨hheard, n, htold⟩ := hp
  obtain ⟨x, hcomings, hvisit⟩ := hb.visit m peer
  rw [htold] at hcomings
  have hafter : (Entry.after { host := b.host, move := m }).lastHeard? peer =
      (b.record m).host.lastHeard? peer := rfl
  generalize hy : (b.record m).host.lastHeard? peer = y at hvisit hafter
  generalize b.host.lastHeard? peer = t at hvisit hheard hcomings
  have hsome (hy : y.isSome) : heardAt peer (b.record m).entries =
      heardAt peer b.entries ++ (b.host.heardAt? peer m).toList := heardAt_concat (hafter ▸ hy)
  have hnone (hy : y = none) : heardAt peer (b.record m).entries = [] :=
    heardAt_concat_of_none (hafter.trans hy)
  cases hvisit with
  | absent _ =>
    refine ⟨by rw [hy, hnone rfl]; rfl, n, ?_⟩
    rw [hy, hcomings, List.append_nil]
  | opened hnow =>
    refine ⟨by rw [hy, hsome rfl, hnow]; simp, n, ?_⟩
    rw [hy, hcomings]
    simp [visits]
  | heard hnow =>
    refine ⟨by rw [hy, hsome rfl, hnow]; simp, n, ?_⟩
    rw [hy, hcomings, List.append_nil]
    rfl
  | stayed hnow _ =>
    refine ⟨by rw [hy, hsome rfl, hnow, hheard]; simp, n, ?_⟩
    rw [hy, hcomings, List.append_nil]
  | closed _ _ =>
    refine ⟨by rw [hy, hnone rfl]; rfl, n + 1, ?_⟩
    rw [hy, hcomings]
    exact (visits_succ peer n).symm

theorem Run.attended (hb : b.Run) (peer : Address) : Attended peer b := by
  induction hb with
  | start config doorman => exact ⟨rfl, 0, rfl⟩
  | record hb _ ih => exact ih.record hb _

theorem Run.configured (hb : b.Run) :
    b.host.Configured b.host.config ∧ ∀ e ∈ b.entries, e.host.Configured b.host.config := by
  induction hb with
  | start config doorman => exact ⟨Host.configured_make config doorman, fun e he => nomatch he⟩
  | @record b m _ _ ih =>
    obtain ⟨hhost, hentries⟩ := ih
    have hafter := hhost.act m
    rw [host_record, hafter.config_eq]
    refine ⟨hafter, fun e he => ?_⟩
    rcases List.mem_append.mp he with hold | hnew
    · exact hentries e hold
    · rw [List.mem_singleton.mp hnew]
      exact hhost

theorem Run.closed_iff (hb : b.Run) (htimes : b.times.Pairwise (· ≤ ·))
      (hpresent : (b.host.channel? peer).isSome) (m : HostMove σ) :
      (b.host.act m).channel? peer = none ↔
      ∃ now, m = .expire now ∧ ∃ t ∈ heardAt peer b.entries, (∀ s ∈ heardAt peer b.entries, s ≤ t) ∧
        b.host.config.timeout < now.since t := by
  obtain ⟨_, -, hvisit⟩ := hb.visit m peer
  have hlast := (hb.attended peer).heard
  have hsorted : (heardAt peer b.entries).Pairwise (· ≤ ·) := pairwise_heardAt htimes
  rw [← hb.configured.1.timeout_eq]
  rw [← Option.isSome_map (f := Channel.lastReceived), ← Host.lastHeard?] at hpresent
  have hgone : (b.host.act m).channel? peer = none ↔ (b.record m).host.lastHeard? peer = none :=
    Option.map_eq_none_iff.symm
  rw [hgone]
  obtain ⟨t, ht⟩ := Option.isSome_iff_exists.mp hpresent
  rw [ht] at hvisit hlast
  have hmem : t ∈ heardAt peer b.entries := List.mem_of_getLast? hlast.symm
  have hlatest : ∀ s ∈ heardAt peer b.entries, s ≤ t := by
    obtain ⟨earlier, hearlier⟩ := List.getLast?_eq_some_iff.mp hlast.symm
    rw [hearlier] at hsorted ⊢
    exact le_last hsorted
  generalize (b.record m).host.lastHeard? peer = y at hvisit
  cases hvisit with
  | heard hnow =>
    refine ⟨fun h => absurd h (Option.some_ne_none _), ?_⟩
    rintro ⟨now, rfl, -⟩
    cases hnow
  | stayed _ hkept =>
    refine ⟨fun h => absurd h (Option.some_ne_none _), ?_⟩
    rintro ⟨now, hm, s, hs, hmax, hover⟩
    obtain rfl : s = t := Nat.le_antisymm (hlatest s hs) (hmax t hmem)
    exact absurd hover (hkept now hm)
  | closed hm hover => exact ⟨fun _ => ⟨_, hm, t, hmem, hlatest, hover⟩, fun _ => rfl⟩

/-- If a host is ticked at times that do not go backwards, with whatever comes in:
connections and timeouts of each peer are told in turns, and the peer has a
channel as long as it connected last. There are never more channels than the
host was configured for. A channel is removed exactly in a tick at which the
latest packet that was accepted on it is older than the timeout. What is not
accepted prolongs no visit. -/
theorem lifecycle (hb : b.Reachable) (htimes : b.times.Pairwise (· ≤ ·)) :
    (∀ peer, (∃ n, comings peer b.told = visits peer n (b.host.channel? peer).isSome) ∧
      ((b.host.channel? peer).isSome = true ↔
        (comings peer b.told).getLast? = some (.connected peer))) ∧
    (b.host.roster.size ≤ b.host.config.maxPeers ∧
      ∀ e ∈ b.entries, e.host.roster.size ≤ b.host.config.maxPeers) ∧
    ∀ before e after, b.entries = before ++ e :: after →
      (∀ peer, (e.host.channel? peer).isSome → (e.after.channel? peer = none ↔
        ∃ now, e.move = .expire now ∧ ∃ t ∈ heardAt peer before,
          (∀ s ∈ heardAt peer before, s ≤ t) ∧
          b.host.config.timeout < now.since t)) ∧
      ∀ d now, e.move = .hear d now → e.host.accepts d now = false →
        ∀ peer, e.after.lastHeard? peer = e.host.lastHeard? peer := by
  have hrun := hb.run
  obtain ⟨hhost, hentries⟩ := hrun.configured
  refine ⟨fun peer => ?_, ⟨hhost.size_le, fun e he => (hentries e he).size_le⟩,
    fun before e after hsplit => ⟨?_, ?_⟩⟩
  · obtain ⟨n, htold⟩ := (hrun.attended peer).told
    rw [Host.lastHeard?, Option.isSome_map] at htold
    refine ⟨⟨n, htold⟩, ?_⟩
    rw [htold, getLast?_visits]
  · intro peer hpresent
    have hbefore : (before.filterMap (·.move.time?)).Pairwise (· ≤ ·) := by
      rw [times, hsplit, List.filterMap_append] at htimes
      exact (List.pairwise_append.mp htimes).1
    have hclosed := (hrun.earlier hsplit).closed_iff hbefore hpresent e.move
    rw [show e.host.config = b.host.config from (hentries e (by simp [hsplit])).config_eq]
      at hclosed
    exact hclosed
  · intro d now hmove hrefused peer
    have hstill : e.host.Still peer (e.host.hear d now).2 := Host.still_hear hrefused
    rw [Entry.after, hmove]
    exact hstill.lastHeard_eq

end

def secondVisit : Daybook Script BanList :=
  ((firstVisit.tick {} (Interval.seconds 6)).record .takeEvents).tick
    { incoming := [(0, { source := visitor, bytes := greeting.encode.toOption.getD [] })] }
    (Interval.seconds 7)

def parting : Entry Script BanList := secondVisit.entries.get ⟨8, by decide +kernel⟩

theorem lifecycle_secondVisit :
    secondVisit.Reachable ∧ secondVisit.times.Pairwise (· ≤ ·) ∧
      comings visitor secondVisit.told =
        [.connected visitor, .timedOut visitor, .connected visitor] ∧
      (secondVisit.host.channel? visitor).isSome = true ∧
      secondVisit.entries = secondVisit.entries.take 8 ++ parting :: secondVisit.entries.drop 9 ∧
      (parting.host.channel? visitor).isSome = true ∧ parting.after.channel? visitor = none ∧
      ∃ now, parting.move = .expire now ∧ ∃ t ∈ [0], Interval.seconds 5 < now.since t := by
  have hfirst : firstVisit.Reachable := .tick _ _ (.start _ _)
  have hreachable : secondVisit.Reachable := .tick _ _ (.act (.tick _ _ hfirst) rfl)
  have htimes : secondVisit.times.Pairwise (· ≤ ·) := by decide +kernel
  have hentries : secondVisit.entries = secondVisit.entries.take 8 ++
      parting :: secondVisit.entries.drop 9 := by
    rw [parting, List.get_eq_getElem, ← List.drop_eq_getElem_cons, List.take_append_drop]
  have hcomings : comings visitor secondVisit.told =
      [.connected visitor, .timedOut visitor, .connected visitor] := by
    decide +kernel
  have hheard : heardAt visitor (secondVisit.entries.take 8) = [0] := by decide +kernel
  have htimeout : secondVisit.host.config.timeout = Interval.seconds 5 := by decide +kernel
  have hpresent : (parting.host.channel? visitor).isSome = true := by decide +kernel
  have hgone : parting.after.channel? visitor = none :=
    Option.isNone_iff_eq_none.mp (by decide +kernel)
  obtain ⟨hpeers, -, hmoves⟩ := lifecycle hreachable htimes
  obtain ⟨now, hmove, t, ht, -, hover⟩ := ((hmoves _ _ _ hentries).1 visitor hpresent).mp hgone
  rw [hheard] at ht
  rw [htimeout] at hover
  exact ⟨hreachable, htimes, hcomings, (hpeers visitor).2.mpr (by rw [hcomings]; rfl), hentries,
    hpresent, hgone, now, hmove, t, ht, hover⟩

end Daybook

end Courier
