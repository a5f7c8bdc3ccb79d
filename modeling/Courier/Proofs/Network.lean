import Courier.Network.Simulated

/-!
# Nothing arrives that was not sent

However a network is used, whatever is on its way and whatever has arrived at an
address was sent to that address, by the same sender and with the same bytes
(`Carries.genuine`). Datagrams may be lost or delayed, never cut or made up.
-/

namespace Courier.Network

/-- Networks with all that was sent over them, latest first. -/
inductive Carries : Network → List Offer → Prop
  | start (now : Time) (noise : Noise) : Carries { now, noise } []
  | bind {n n' : Network} {sent : List Offer} {addr : Address} :
    Carries n sent → n.bind addr = .ok n' → Carries n' sent
  | unbind {n : Network} {sent : List Offer} (addr : Address) : Carries n sent →
      Carries (n.unbind addr) sent
  | setLink {n : Network} {sent : List Offer} (source : Address) (c : Conditions) :
    Carries n sent → Carries (n.setLink source c) sent
  | setFilter {n : Network} {sent : List Offer} (filter : Option DropFilter) :
    Carries n sent → Carries (n.setFilter filter) sent
  | advance {n : Network} {sent : List Offer} (now : Time) : Carries n sent →
      Carries (n.advance now) sent
  | send {n : Network} {sent : List Offer} (source target : Address) (bytes : Bytes) :
    Carries n sent → Carries (n.send source target bytes) ({ source, target, bytes } :: sent)
  | receive {n : Network} {sent : List Offer} (addr : Address) (buffer : Nat) :
    Carries n sent → Carries (n.receive addr buffer).2 sent
  | receiveAll {n : Network} {sent : List Offer} (addr : Address) (buffer : Nat) :
    Carries n sent → Carries (n.receiveAll addr buffer).2 sent

/-- All that is on its way or has arrived was sent. -/
structure Genuine (sent : List Offer) (n : Network) : Prop where
  underway : ∀ d ∈ n.transit.waiting, ⟨d.source, d.target, d.bytes⟩ ∈ sent
  arrived : ∀ x ∈ n.inboxes, ∀ d ∈ x.2, ⟨d.source, x.1, d.bytes⟩ ∈ sent

section
variable {n n' : Network} {sent : List Offer} {addr : Address} {inbox : List Datagram}

theorem mem_inboxes (h : n.inbox? addr = some inbox) : (addr, inbox) ∈ n.inboxes := by
  obtain ⟨before, after, hsplit, -⟩ := List.lookup_eq_some_iff.mp h
  rw [hsplit]
  exact List.mem_append_right _ List.mem_cons_self

theorem Genuine.of_eq (hn : n.Genuine sent) (htransit : n'.transit.waiting = n.transit.waiting)
    (hinboxes : n'.inboxes = n.inboxes) : n'.Genuine sent where
  underway := htransit ▸ hn.underway
  arrived := hinboxes ▸ hn.arrived

theorem Genuine.mono {more : List Offer} (hn : n.Genuine sent) (hsub : sent ⊆ more) :
    n.Genuine more where
  underway d hd := hsub (hn.underway d hd)
  arrived x hx d hd := hsub (hn.arrived x hx d hd)

theorem Genuine.setInbox (hn : n.Genuine sent)
    (hinbox : ∀ d ∈ inbox, ⟨d.source, addr, d.bytes⟩ ∈ sent) :
    (n.setInbox addr inbox).Genuine sent where
  underway := hn.underway
  arrived x hx := by
    obtain ⟨entry, hentry, rfl⟩ := List.mem_map.mp hx
    split
    · exact hinbox
    · exact hn.arrived entry hentry

theorem Genuine.of_inbox (hn : n.Genuine sent) (h : n.inbox? addr = some inbox) :
    ∀ d ∈ inbox, ⟨d.source, addr, d.bytes⟩ ∈ sent :=
  hn.arrived _ (mem_inboxes h)

theorem Genuine.arrive (hn : n.Genuine sent) {d : InTransit}
    (hd : ⟨d.source, d.target, d.bytes⟩ ∈ sent) : (n.arrive d).Genuine sent := by
  simp only [Network.arrive]
  cases hinbox : n.inbox? d.target with
  | none => exact hn.of_eq rfl rfl
  | some inbox =>
    refine (hn.setInbox fun x hx => ?_).of_eq rfl rfl
    rcases List.mem_append.mp hx with hold | hnew
    · exact hn.of_inbox hinbox x hold
    · obtain rfl := List.mem_singleton.mp hnew
      exact hd

theorem Genuine.arriveAll (hn : n.Genuine sent) {due : List InTransit}
    (hdue : ∀ d ∈ due, ⟨d.source, d.target, d.bytes⟩ ∈ sent) :
    (due.foldl Network.arrive n).Genuine sent := by
  induction due generalizing n with
  | nil => exact hn
  | cons d rest ih =>
    obtain ⟨hd, hrest⟩ := List.forall_mem_cons.mp hdue
    exact ih (hn.arrive hd) hrest

theorem Genuine.releaseDue (hn : n.Genuine sent) : n.releaseDue.Genuine sent := by
  have hsplit := n.transit.release_append n.now
  have hkept : ({ n with transit := (n.transit.release n.now).2 } : Network).Genuine sent :=
    ⟨fun d hd => hn.underway d (hsplit ▸ List.mem_append_right _ hd), hn.arrived⟩
  exact hkept.arriveAll fun d hd => hn.underway d (hsplit ▸ List.mem_append_left _ hd)

theorem screen_spec (n : Network) (o : Offer) :
    (n.screen o).2.transit = n.transit ∧ (n.screen o).2.inboxes = n.inboxes := by
  simp only [screen]
  split
  · exact ⟨rfl, rfl⟩
  · exact ⟨rfl, rfl⟩

theorem impair_spec (n : Network) (source : Address) :
    (n.impair source).2.transit = n.transit ∧ (n.impair source).2.inboxes = n.inboxes := by
  simp only [impair]
  split
  · exact ⟨rfl, rfl⟩
  · split
    · exact ⟨rfl, rfl⟩
    · exact ⟨rfl, rfl⟩

theorem mem_insert {d e : InTransit} {ds : List InTransit} :
    e ∈ Transit.insert d ds ↔ e = d ∨ e ∈ ds := by
  induction ds with
  | nil => simp [Transit.insert]
  | cons x rest ih =>
    simp only [Transit.insert]
    split
    · exact List.mem_cons
    · simp only [List.mem_cons, ih]
      exact or_left_comm

theorem Genuine.add (hn : n.Genuine sent) (release : Time) {source target : Address} {bytes : Bytes}
    (hsent : ⟨source, target, bytes⟩ ∈ sent) :
    ({ n with transit := n.transit.add release source target bytes } : Network).Genuine sent where
  underway d hd := by
    rcases mem_insert.mp hd with rfl | hd
    · exact hsent
    · exact hn.underway d hd
  arrived := hn.arrived

theorem Genuine.send (hn : n.Genuine sent) (source target : Address) (bytes : Bytes) :
    (n.send source target bytes).Genuine ({ source, target, bytes } :: sent) := by
  obtain ⟨hstransit, hsinboxes⟩ := n.screen_spec { source, target, bytes }
  obtain ⟨hitransit, hiinboxes⟩ := (n.screen { source, target, bytes }).2.impair_spec source
  have hn := hn.mono (List.subset_cons_self { source, target, bytes } sent)
  have hscreened := hn.of_eq (congrArg Transit.waiting hstransit) hsinboxes
  have himpaired := hscreened.of_eq (congrArg Transit.waiting hitransit) hiinboxes
  refine Genuine.releaseDue ?_
  simp only [dispatch]
  split
  · exact hscreened.of_eq rfl rfl
  · split
    next hlost => exact (hlost ▸ himpaired).of_eq rfl rfl
    next hkept => exact (hkept ▸ himpaired).add _ List.mem_cons_self

theorem Carries.genuine (hn : n.Carries sent) : n.Genuine sent := by
  induction hn with
  | start now noise => exact ⟨by simp, by simp⟩
  | @bind n n' sent addr _ hbind ih =>
    simp only [Network.bind] at hbind
    split at hbind
    · cases hbind
    · cases hbind
      refine ⟨ih.underway, fun x hx => ?_⟩
      rcases List.mem_append.mp hx with hold | hnew
      · exact ih.arrived x hold
      · obtain rfl := List.mem_singleton.mp hnew
        simp
  | unbind addr _ ih => exact ⟨ih.underway, fun x hx => ih.arrived x (List.mem_filter.mp hx).1⟩
  | setLink source c _ ih => exact ih.of_eq rfl rfl
  | setFilter filter _ ih => exact ih.of_eq rfl rfl
  | advance now _ ih =>
    rw [Network.advance]
    exact Genuine.releaseDue (ih.of_eq rfl rfl)
  | send source target bytes _ ih => exact ih.send source target bytes
  | receive addr buffer _ ih =>
    have ih := ih.releaseDue
    simp only [Network.receive]
    split
    next d rest hinbox =>
      exact ih.setInbox fun x hx =>
        ih.of_inbox hinbox x (List.mem_cons_of_mem d hx)
    · exact ih
  | receiveAll addr buffer _ ih => exact ih.releaseDue.setInbox (by simp)

-- ---------------------------------------------------------------------------
-- Arrivals
-- ---------------------------------------------------------------------------

/-- All that has arrived at an address. -/
def arrived (n : Network) (addr : Address) : List Datagram := (n.releaseDue.inbox? addr).getD []

theorem Genuine.of_arrived (hn : n.Genuine sent) {d : Datagram} {i : Nat}
    (hd : (n.arrived addr)[i]? = some d) : ⟨d.source, addr, d.bytes⟩ ∈ sent := by
  have hmem := List.mem_of_getElem? hd
  rw [Network.arrived] at hmem
  cases hinbox : n.releaseDue.inbox? addr with
  | none => simp [hinbox] at hmem
  | some inbox =>
    rw [hinbox] at hmem
    exact hn.releaseDue.of_inbox hinbox d hmem

/-- What arrived is received in the same order, each datagram cut to the buffer. -/
theorem received_of_arrived {d : Datagram} {i : Nat} (hd : (n.arrived addr)[i]? = some d)
    (buffer : Nat) :
    (Transport.receive ({ network := n, addr } : Endpoint) buffer).1.datagrams[i]? =
      some (d.cut buffer) := by
  show ((n.arrived addr).map (·.cut buffer))[i]? = _
  rw [List.getElem?_map, hd, Option.map_some]

end

end Courier.Network
