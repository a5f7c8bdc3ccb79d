import Mathlib.Data.List.DropRight
import Courier.Proofs.Host

/-!
# A host and its history

A daybook is a host together with all that it did, move by move, each with the
host as it was before. Any datagrams may come in, from any addresses and at any
times, and whoever owns the host uses it between the ticks as they like.
-/

namespace Courier

structure Daybook.Entry (σ δ : Type) where
  host : Host δ
  move : HostMove σ

structure Daybook (σ δ : Type) where
  host : Host δ
  /-- What the host did, latest last. -/
  entries : List (Daybook.Entry σ δ) := []

namespace Daybook

theorem le_last {xs : List Nat} {x : Nat} (h : (xs ++ [x]).Pairwise (· ≤ ·)) :
    ∀ y ∈ xs ++ [x], y ≤ x := by
  intro y hy
  rcases List.mem_append.mp hy with hy | hy
  · exact (List.pairwise_append.mp h).2.2 y hy x (List.mem_singleton_self x)
  · exact Nat.le_of_eq (List.mem_singleton.mp hy)

/-- How the phase changes when a channel changes, is created or removed. -/
def changesOf : Option Channel → Option Channel → List (Phase × Phase)
  | some c, some c' => c.changes c'
  | none, some c' => phasesOf c'.notices
  | _, none => []

section
variable {σ δ : Type} [Transport σ] [Doorman δ]

def Entry.after (e : Entry σ δ) : Host δ := e.host.act e.move

def Entry.emitted (e : Entry σ δ) : List HostEvent := e.after.events.drop e.host.events.length

def Entry.changes (peer : Address) (e : Entry σ δ) : List (Phase × Phase) :=
  changesOf (e.host.channel? peer) (e.after.channel? peer)

/-- The entries since the channel of a peer was created, with the one that
created it; none if the peer has no channel. -/
def since (peer : Address) (entries : List (Entry σ δ)) : List (Entry σ δ) :=
  entries.rtakeWhile fun e => (e.after.channel? peer).isSome

/-- The changes of phase since the channel of a peer was created. -/
def history (peer : Address) (entries : List (Entry σ δ)) : List (Phase × Phase) :=
  (since peer entries).flatMap (Entry.changes peer)

def record (b : Daybook σ δ) (m : HostMove σ) : Daybook σ δ :=
  { host := b.host.act m, entries := b.entries ++ [{ host := b.host, move := m }] }

@[simp] theorem entries_record (b : Daybook σ δ) (m : HostMove σ) :
    (b.record m).entries = b.entries ++ [{ host := b.host, move := m }] := rfl

@[simp] theorem host_record (b : Daybook σ δ) (m : HostMove σ) : (b.record m).host = b.host.act m :=
  rfl

def tick (b : Daybook σ δ) (net : σ) (now : Time) : Daybook σ δ :=
  { (b.host.tickMoves net now).foldl record b with host := (b.host.tick net now).1 }

/-- The daybooks of a host that is ticked on any transport and used by its owner. -/
inductive Reachable : Daybook σ δ → Prop
  | start (config : HostConfig) (doorman : δ) : Reachable { host := .make config doorman }
  | tick {b : Daybook σ δ} (net : σ) (now : Time) : Reachable b → Reachable (b.tick net now)
  | act {b : Daybook σ δ} {m : HostMove σ} : Reachable b → m.isOwners = true →
      Reachable (b.record m)

variable {b : Daybook σ δ} {entries : List (Entry σ δ)} {e : Entry σ δ} {peer : Address}

theorem host_foldl_record (b : Daybook σ δ) (moves : List (HostMove σ)) :
    (moves.foldl record b).host = moves.foldl Host.act b.host := by
  induction moves generalizing b with
  | nil => rfl
  | cons m rest ih => exact ih (b.record m)

theorem entries_foldl_record (b : Daybook σ δ) (moves : List (HostMove σ)) :
    ∃ added, (moves.foldl record b).entries = b.entries ++ added ∧ ∀ e ∈ added, e.move ∈ moves := by
  induction moves generalizing b with
  | nil => exact ⟨[], (List.append_nil _).symm, by simp⟩
  | cons m rest ih =>
    obtain ⟨added, hentries, hmoves⟩ := ih (b.record m)
    refine ⟨{ host := b.host, move := m } :: added, ?_, ?_⟩
    · rw [List.foldl_cons, hentries, entries_record, List.append_assoc, List.singleton_append]
    · intro e he
      rcases List.mem_cons.mp he with rfl | he
      · exact List.mem_cons_self
      · exact List.mem_cons_of_mem _ (hmoves e he)

theorem tick_eq (b : Daybook σ δ) (net : σ) (now : Time) :
    b.tick net now = (b.host.tickMoves net now).foldl record b := by
  rw [tick, ← b.host.foldl_tickMoves, ← host_foldl_record]

theorem since_concat (h : (e.after.channel? peer).isSome) :
    since peer (entries ++ [e]) = since peer entries ++ [e] :=
  List.rtakeWhile_concat_pos _ _ _ h

theorem since_concat_of_none (h : e.after.channel? peer = none) :
    since peer (entries ++ [e]) = [] :=
  List.rtakeWhile_concat_neg _ _ _ (by simp [h])

theorem history_concat (h : (e.after.channel? peer).isSome) :
    history peer (entries ++ [e]) = history peer entries ++ e.changes peer := by
  simp [history, since_concat h]

end

end Daybook

end Courier
