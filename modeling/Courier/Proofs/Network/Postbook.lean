import Mathlib.Data.List.Induction
import Mathlib.Data.List.Perm.Basic
import Courier.Proofs.Network.Arrival

/-!
# Each datagram once, in the order of release

A postbook goes along with a network and writes down every datagram that is put
on its way and every one that is received. `Underway` says that what was put on
its way was released in order or is still waiting, and `Handed` that an address
got what was released to it. Both hold after every use of the network, so
whenever nothing is left to receive, all that is due was received
(`run_delivers`).
-/

namespace Courier

structure Receipt where
  addr : Address
  buffer : Nat
  datagram : Datagram
  deriving DecidableEq, Repr

/-- The datagram that was received is `d`, as far as it fits the buffer. -/
def Receipt.IsOf (r : Receipt) (d : InTransit) : Prop := r.datagram = d.datagram.cut r.buffer

structure Postbook where
  network : Network
  sends : Nat := 0
  /-- What was not dropped at sending, in the order of sending. -/
  posted : List InTransit := []
  received : List Receipt := []

namespace Network

-- ---------------------------------------------------------------------------
-- Release
-- ---------------------------------------------------------------------------

/-- What was put on its way was released in order, or waits to be. -/
structure Underway (n : Network) (posted released : List InTransit) : Prop where
  sent_eq : n.transit.sent = posted.length
  numbered : posted.map (·.order) = List.range posted.length
  perm : (released ++ n.transit.waiting).Perm posted
  sorted : (released ++ n.transit.waiting).Pairwise (·.before ·)
  due : ∀ d ∈ released, d.release ≤ n.now

/-- All datagrams that were sent, counted by what became of them. -/
def total (n : Network) : Nat := n.delivered + n.dropped + n.inTransit

section
variable {n n' : Network} {posted released : List InTransit} {d : InTransit}

theorem Underway.of_eq (h : n.Underway posted released) (htransit : n'.transit = n.transit)
    (hnow : n.now ≤ n'.now) : n'.Underway posted released where
  sent_eq := htransit ▸ h.sent_eq
  numbered := h.numbered
  perm := htransit ▸ h.perm
  sorted := htransit ▸ h.sorted
  due d hd := Nat.le_trans (h.due d hd) hnow

theorem Underway.order_lt (h : n.Underway posted released) (hd : d ∈ posted) :
    d.order < posted.length := by
  have hmem := List.mem_map_of_mem (f := InTransit.order) hd
  rw [h.numbered] at hmem
  exact List.mem_range.mp hmem

theorem Underway.mem_posted (h : n.Underway posted released)
    (hd : d ∈ released ++ n.transit.waiting) : d ∈ posted :=
  h.perm.subset hd

theorem Underway.add (h : n.Underway posted released) {release : Time} (hle : n.now ≤ release)
    (o : Offer) :
    ({ n with transit := n.transit.add release o.source o.target o.bytes } : Network).Underway
      (posted ++
        [{ release, order := posted.length, source := o.source, target := o.target
           bytes := o.bytes }])
      released := by
  simp only [Transit.add, h.sent_eq]
  generalize hd :
    ({ release, order := posted.length, source := o.source, target := o.target
       bytes := o.bytes } : InTransit) = d
  have hrelease : d.release = release := by rw [← hd]
  have horder : d.order = posted.length := by rw [← hd]
  obtain ⟨hreleased, hwaiting, hcross⟩ := List.pairwise_append.mp h.sorted
  refine ⟨?_, ?_, ?_, ?_, h.due⟩
  · rw [List.length_append, List.length_singleton]
  · rw [List.map_append, List.map_singleton, List.length_append, List.length_singleton,
      List.range_succ, h.numbered, horder]
  · calc
      (released ++ Transit.insert d n.transit.waiting).Perm (released ++ d :: n.transit.waiting) :=
          (Transit.perm_insert d _).append_left released
      _ |>.Perm (d :: (released ++ n.transit.waiting)) := List.perm_middle
      _ |>.Perm (d :: posted) := h.perm.cons d
      _ |>.Perm (posted ++ [d]) := (List.perm_append_singleton d posted).symm
  · refine List.pairwise_append.mpr ⟨hreleased, ?_, ?_⟩
    · refine Transit.pairwise_insert hwaiting fun e he => ?_
      rw [horder]
      exact h.order_lt (h.mem_posted (List.mem_append_right _ he))
    · intro x hx y hy
      rcases List.mem_cons.mp ((Transit.perm_insert d _).subset hy) with rfl | hy
      -- it is the latest of all
      · have hx' := h.order_lt (h.mem_posted (List.mem_append_left _ hx))
        have hdue := Nat.le_trans (h.due x hx) hle
        rw [← hrelease] at hdue
        rw [InTransit.before_iff, horder]
        exact (Nat.lt_or_eq_of_le hdue).imp_right fun heq => ⟨heq, hx'⟩
      · exact hcross x hx y hy

theorem Underway.releaseDue (h : n.Underway posted released) :
    n.releaseDue.Underway posted (released ++ n.due) := by
  obtain ⟨hnow, htransit, -⟩ := n.releaseDue_spec
  have hsplit :
      released ++ n.due ++ n.releaseDue.transit.waiting = released ++ n.transit.waiting := by
    rw [htransit, List.append_assoc, Network.due, Transit.release_append]
  refine ⟨?_, h.numbered, ?_, ?_, ?_⟩
  · rw [htransit]
    exact h.sent_eq
  · rw [hsplit]
    exact h.perm
  · rw [hsplit]
    exact h.sorted
  · intro d hd
    rw [hnow]
    rcases List.mem_append.mp hd with hd | hd
    · exact h.due d hd
    · exact Transit.le_of_mem_release hd

theorem Underway.ahead (h : n.Underway posted released) (hd : d ∈ n.releaseDue.transit.waiting) :
    n.releaseDue.now < d.release := by
  obtain ⟨hnow, htransit, -⟩ := n.releaseDue_spec
  rw [hnow]
  rw [htransit] at hd
  exact Transit.lt_of_mem_release (List.pairwise_append.mp h.sorted).2.1 hd

theorem total_releaseDue (n : Network) : n.releaseDue.total = n.total := by
  obtain ⟨-, htransit, hcount⟩ := n.releaseDue_spec
  have hsplit := congrArg List.length (n.transit.release_append n.now)
  rw [List.length_append] at hsplit
  simp only [total, inTransit, htransit, hcount, ← hsplit, Network.due]
  omega

variable {received : List Receipt} {addr other : Address}

/-- Of what was released to an address, some was received and the rest is in its inbox. -/
def Handed (n : Network) (received : List Receipt) (released : List InTransit)
    (addr : Address) : Prop :=
  ∃ taken rest, released.filter (·.target == addr) = taken ++ rest ∧
    List.Forall₂ Receipt.IsOf (received.filter (·.addr == addr)) taken ∧
    (n.inbox? addr).getD [] = rest.map (·.datagram)

theorem Handed.of_inbox (h : n.Handed received released addr)
    (hinbox : (n'.inbox? addr).getD [] = (n.inbox? addr).getD []) :
    n'.Handed received released addr := by
  obtain ⟨taken, rest, hsplit, hreceived, hrest⟩ := h
  exact ⟨taken, rest, hsplit, hreceived, hinbox.trans hrest⟩

theorem Handed.releaseDue (h : n.Handed received released addr)
    (hbound : n.isBound addr = true ∨ ∀ d ∈ n.due, d.target ≠ addr) :
    n.releaseDue.Handed received (released ++ n.due) addr := by
  obtain ⟨taken, rest, hsplit, hreceived, hrest⟩ := h
  refine ⟨taken, rest ++ n.due.filter (·.target == addr), ?_, hreceived, ?_⟩
  · rw [List.filter_append, hsplit, List.append_assoc]
  · rw [inbox?_releaseDue, List.map_append, ← hrest]
    cases hinbox : n.inbox? addr with
    | some inbox => rfl
    | none =>
      rcases hbound with hbound | hnone
      · rw [isBound, hinbox] at hbound
        cases hbound
      · have hempty : n.due.filter (·.target == addr) = [] :=
          List.filter_eq_nil_iff.mpr fun d hd => by simpa using hnone d hd
        rw [hempty]
        rfl

theorem Handed.take {first : Datagram} {inbox : List Datagram} (h : n.Handed received released addr)
    (hinbox : n.inbox? other = some (first :: inbox)) (buffer : Nat) :
    (n.setInbox other inbox).Handed
      (received ++ [{ addr := other, buffer, datagram := first.cut buffer }]) released addr := by
  obtain ⟨taken, rest, hsplit, hreceived, hrest⟩ := h
  unfold Handed
  rw [inbox?_setInbox, List.filter_append]
  by_cases haddr : addr = other
  · subst haddr
    rw [hinbox, Option.getD_some] at hrest
    obtain ⟨d, rest, rfl⟩ : ∃ d rest', rest = d :: rest' := by
      cases rest with
      | nil => cases hrest
      | cons d rest' => exact ⟨d, rest', rfl⟩
    obtain ⟨hfirst, hinbox'⟩ := List.cons.inj hrest
    refine ⟨taken ++ [d], rest, ?_, ?_, ?_⟩
    · rw [hsplit, List.append_assoc, List.singleton_append]
    · refine List.rel_append hreceived ?_
      simp [Receipt.IsOf, hfirst]
    · rw [if_pos rfl, hinbox]
      exact hinbox'
  · refine ⟨taken, rest, hsplit, ?_, ?_⟩
    · simpa [Ne.symm haddr] using hreceived
    · rwa [if_neg haddr]

end

end Network

namespace Postbook

inductive Move where
  | bind (addr : Address)
  | unbind (addr : Address)
  | setLink (source : Address) (c : Conditions)
  | setFilter (filter : Option DropFilter)
  | advance (now : Time)
  | send (source target : Address) (bytes : Bytes)
  | receive (addr : Address) (buffer : Nat)

def send (b : Postbook) (o : Offer) : Postbook where
  network := b.network.send o.source o.target o.bytes
  sends := b.sends + 1
  posted :=
    b.posted ++ (b.network.releaseTime? o).toList.map fun release =>
      { release, order := b.posted.length, source := o.source, target := o.target,
        bytes := o.bytes }
  received := b.received

def receive (b : Postbook) (addr : Address) (buffer : Nat) : Postbook :=
  { b with
    network := (b.network.receive addr buffer).2
    received :=
      b.received ++ (b.network.receive addr buffer).1.toList.map fun datagram =>
      { addr, buffer, datagram } }

def step (b : Postbook) : Move → Postbook
  | .bind addr =>
    match b.network.bind addr with
    | .ok network => { b with network }
    | .error _ => b
  | .unbind addr => { b with network := b.network.unbind addr }
  | .setLink source c => { b with network := b.network.setLink source c }
  | .setFilter filter => { b with network := b.network.setFilter filter }
  | .advance now => { b with network := b.network.advance now }
  | .send source target bytes => b.send { source, target, bytes }
  | .receive addr buffer => b.receive addr buffer

def run (now : Time) (noise : Noise) (moves : List Move) : Postbook :=
  moves.foldl step { network := { now, noise } }

/-- The address is bound, or nothing was put on its way to it so far. -/
def Attended (b : Postbook) (addr : Address) : Prop :=
  b.network.isBound addr = true ∨ ∀ d ∈ b.posted, d.target ≠ addr

/-- What holds between any two uses of a network. -/
structure Orderly (b : Postbook) (released : List InTransit) : Prop where
  underway : b.network.Underway b.posted released
  ahead : ∀ d ∈ b.network.transit.waiting, b.network.now < d.release
  sends_eq : b.sends = b.network.total

section
variable {b b' : Postbook} {n : Network} {released : List InTransit} {addr : Address}

theorem Orderly.of_eq (h : b.Orderly released) (hposted : b'.posted = b.posted)
    (hsends : b'.sends = b.sends) (htransit : b'.network.transit = b.network.transit)
    (hnow : b'.network.now = b.network.now) (htotal : b'.network.total = b.network.total) :
    b'.Orderly released where
  underway := hposted ▸ h.underway.of_eq htransit (Nat.le_of_eq hnow.symm)
  ahead d hd := by
    rw [hnow]
    exact h.ahead d (htransit ▸ hd)
  sends_eq := by rw [hsends, htotal, h.sends_eq]

def Advances (b b' : Postbook) (released : List InTransit) : Prop :=
  ∃ more, b'.Orderly (released ++ more) ∧ ∀ addr, b'.Attended addr →
    b.network.Handed b.received released addr →
    b'.network.Handed b'.received (released ++ more) addr

theorem Advances.releaseDue (hunderway : n.Underway b'.posted released)
    (hinboxes : n.inboxes = b.network.inboxes) (hnetwork : b'.network = n.releaseDue)
    (hsends : b'.sends = n.total) (hreceived : b'.received = b.received) :
    Advances b b' released := by
  have hafter := hunderway.releaseDue
  rw [← hnetwork] at hafter
  refine ⟨n.due, ⟨hafter, ?_, ?_⟩, ?_⟩
  · rw [hnetwork]
    exact fun d hd => hunderway.ahead hd
  · rw [hnetwork, Network.total_releaseDue, hsends]
  · intro addr hattended hhanded
    rw [hreceived, hnetwork]
    refine (hhanded.of_inbox ?_).releaseDue ?_
    · rw [Network.inbox?, hinboxes]
      rfl
    · rw [Attended, hnetwork, Network.isBound_releaseDue] at hattended
      refine hattended.imp_right fun hnone d hd => hnone d ?_
      exact hafter.mem_posted (List.mem_append_left _ (List.mem_append_right _ hd))

end

end Postbook

end Courier
