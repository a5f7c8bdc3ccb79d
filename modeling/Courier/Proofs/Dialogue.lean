import Courier.Proofs.Chronicle

/-!
# Two channels that talk to each other

Each side takes in packets that the other one built, in any order and any
number of times; a packet that is never taken in was lost. Nothing else reaches
a side.
-/

namespace Courier

structure Dialogue where
  left : Chronicle
  right : Chronicle

namespace Dialogue

/-- What is taken in was built by the other side. -/
def Genuine (other : Chronicle) : Action → Prop
  | .receive r _ _ => r ∈ other.sent
  | _ => True

/-- The dialogues of two channels that are used by a rule. -/
inductive Reachable (rule : Chronicle → Action → Prop) : Dialogue → Prop
  | start (leftPeer rightPeer : Address) (leftNow rightNow : Time) :
    Reachable rule { left := .start leftPeer leftNow, right := .start rightPeer rightNow }
  | left {d : Dialogue} {a : Action} : Reachable rule d → rule d.left a → Genuine d.right a →
    Reachable rule { d with left := d.left.step a }
  | right {d : Dialogue} {a : Action} : Reachable rule d → rule d.right a → Genuine d.left a →
    Reachable rule { d with right := d.right.step a }

def swap (d : Dialogue) : Dialogue := { left := d.right, right := d.left }

section
variable {rule : Chronicle → Action → Prop} {d : Dialogue}

theorem Reachable.swap (h : d.Reachable rule) : d.swap.Reachable rule := by
  induction h with
  | start leftPeer rightPeer leftNow rightNow => exact .start rightPeer leftPeer rightNow leftNow
  | left _ hrule hgenuine ih => exact ih.right hrule hgenuine
  | right _ hrule hgenuine ih => exact ih.left hrule hgenuine

theorem Reachable.left_reachable (h : d.Reachable rule) : d.left.Reachable rule := by
  induction h with
  | start leftPeer rightPeer leftNow rightNow => exact .start leftPeer leftNow
  | left _ hrule _ ih => exact ih.step hrule
  | right _ _ _ ih => exact ih

theorem Reachable.right_reachable (h : d.Reachable rule) : d.right.Reachable rule :=
  h.swap.left_reachable

theorem Reachable.mono {rule' : Chronicle → Action → Prop} (h : d.Reachable rule)
    (hrule : ∀ c a, rule c a → rule' c a) : d.Reachable rule' := by
  induction h with
  | start leftPeer rightPeer leftNow rightNow => exact .start leftPeer rightPeer leftNow rightNow
  | left _ ha hgenuine ih => exact ih.left (hrule _ _ ha) hgenuine
  | right _ ha hgenuine ih => exact ih.right (hrule _ _ ha) hgenuine

theorem Reachable.accepted_subset (h : d.Reachable rule) : d.left.accepted ⊆ d.right.sent := by
  induction h with
  | start leftPeer rightPeer leftNow rightNow => exact List.nil_subset _
  | @left d a _ _ hgenuine ih =>
    intro r hr
    rcases Chronicle.mem_accepted_step hr with hr | ⟨size, now, rfl⟩
    · exact ih hr
    · exact hgenuine
  | right _ _ _ ih => exact fun r hr => (Chronicle.sent_prefix_step _ _).subset (ih hr)

/-- The dialogues that `d` may go on to. -/
inductive Leads (rule : Chronicle → Action → Prop) (d : Dialogue) : Dialogue → Prop
  | refl : Leads rule d d
  | left {e : Dialogue} {a : Action} : Leads rule d e → rule e.left a → Genuine e.right a →
    Leads rule d { e with left := e.left.step a }
  | right {e : Dialogue} {a : Action} : Leads rule d e → rule e.right a → Genuine e.left a →
    Leads rule d { e with right := e.right.step a }

theorem Leads.reachable {e : Dialogue} (hleads : d.Leads rule e) (h : d.Reachable rule) :
    e.Reachable rule := by
  induction hleads with
  | refl => exact h
  | left _ hrule hgenuine ih => exact ih.left hrule hgenuine
  | right _ hrule hgenuine ih => exact ih.right hrule hgenuine

theorem Leads.mono {rule' : Chronicle → Action → Prop} {e : Dialogue} (hleads : d.Leads rule e)
    (hrule : ∀ c a, rule c a → rule' c a) : d.Leads rule' e := by
  induction hleads with
  | refl => exact .refl
  | left _ ha hgenuine ih => exact ih.left (hrule _ _ ha) hgenuine
  | right _ ha hgenuine ih => exact ih.right (hrule _ _ ha) hgenuine

theorem Leads.sent_length_le {e : Dialogue} (hleads : d.Leads rule e) :
    d.left.sent.length ≤ e.left.sent.length := by
  induction hleads with
  | refl => exact Nat.le_refl _
  | left _ _ _ ih => exact Nat.le_trans ih (Chronicle.sent_prefix_step _ _).length_le
  | right _ _ _ ih => exact ih

end

-- ---------------------------------------------------------------------------
-- Playing a dialogue
-- ---------------------------------------------------------------------------

inductive Turn where
  | left (a : Action)
  | right (a : Action)
  | toLeft (k : Nat)
  | toRight (k : Nat)

namespace Turn

def queue (critical : Bool) (data : Bytes) : Turn :=
  .left (.enqueue { kind := .data, critical, data })

def tick : List Turn := [.left .settle, .left (.build 0)]

def tock : List Turn := [.right .settle, .right (.build 0)]

end Turn

def quiet : Dialogue :=
  let home : Address := { ip := .v4 0x7F000001, port := Packet.defaultPort }
  { left := .start home 0, right := .start home 0 }

def play (d : Dialogue) : Turn → Dialogue
  | .left a => { d with left := d.left.step a }
  | .right a => { d with right := d.right.step a }
  | .toLeft k =>
    match d.right.sent[k]? with
    | none => d
    | some r => { d with left := d.left.step (.receive r 0 0) }
  | .toRight k =>
    match d.left.sent[k]? with
    | none => d
    | some r => { d with right := d.right.step (.receive r 0 0) }

def Orderly (d : Dialogue) : Turn → Bool
  | .left (.receive ..) | .right (.receive ..) => false
  | .left a => d.left.Orderly a
  | .right a => d.right.Orderly a
  | .toLeft _ | .toRight _ => true

def Legal : Dialogue → List Turn → Bool
  | _, [] => true
  | d, t :: rest => d.Orderly t && (d.play t).Legal rest

theorem Leads.play {d e : Dialogue} (h : d.Leads Chronicle.Orderly e) {t : Turn}
    (ht : e.Orderly t = true) : d.Leads Chronicle.Orderly (e.play t) := by
  cases t with
  | left a =>
    cases a with
    | receive r size now => cases ht
    | _ => exact h.left (of_decide_eq_true ht) trivial
  | right a =>
    cases a with
    | receive r size now => cases ht
    | _ => exact h.right (of_decide_eq_true ht) trivial
  | toLeft k =>
    simp only [Dialogue.play]
    split
    · exact h
    next r hr => exact h.left trivial (List.mem_of_getElem? hr)
  | toRight k =>
    simp only [Dialogue.play]
    split
    · exact h
    next r hr => exact h.right trivial (List.mem_of_getElem? hr)

theorem Leads.playAll {d e : Dialogue} (h : d.Leads Chronicle.Orderly e) {ts : List Turn}
    (hlegal : e.Legal ts = true) : d.Leads Chronicle.Orderly (ts.foldl Dialogue.play e) := by
  induction ts generalizing e with
  | nil => exact h
  | cons t rest ih =>
    obtain ⟨ht, hrest⟩ := Bool.and_eq_true_iff.mp hlegal
    exact ih (h.play ht) hrest

theorem Reachable.playAll {d : Dialogue} (h : d.Reachable Chronicle.Orderly) {ts : List Turn}
    (hlegal : d.Legal ts = true) : (ts.foldl Dialogue.play d).Reachable Chronicle.Orderly :=
  (Leads.playAll .refl hlegal).reachable h

end Dialogue

end Courier
