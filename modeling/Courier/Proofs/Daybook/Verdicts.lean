import Courier.Proofs.Assembly.Verdicts
import Courier.Proofs.Daybook.Admission
import Courier.Proofs.Host.Content

/-!
# A host tells what its doorman decided

As long as its owner sends no verdicts, every verdict that a host holds for a
peer or has sent to it was given by the doorman on credentials of that peer
(`Run.candid`). A peer that was admitted stays so until it is reported as timed
out (`Run.standing`).
-/

namespace Courier

variable {σ δ : Type}

def HostMove.isVerdict : HostMove σ → Bool
  | .send _ kind _ _ | .broadcast kind _ _ => kind == .verdict
  | _ => false

theorem Host.isVerdict_of_mem_tickMoves [Transport σ] [Doorman δ] {h : Host δ} {net : σ}
    {now : Time} {move : HostMove σ} (hmove : move ∈ h.tickMoves net now) :
    move.isVerdict = false := by
  simp only [Host.tickMoves, List.cons_append, List.append_assoc, List.mem_cons, List.mem_append,
    List.mem_map, List.not_mem_nil, or_false] at hmove
  rcases hmove with rfl | ⟨_, _, rfl⟩ | ⟨_, _, rfl⟩ | ⟨_, _, rfl⟩ | rfl | rfl | rfl
  all_goals rfl

namespace Daybook

def Entry.datagrams (peer : Address) (e : Entry σ δ) : List Bytes :=
  match e.move with
  | .transmit _ now =>
    (e.host.roster.channels.filter (·.peer == peer)).filterMap fun c =>
    (c.build now).1.encode.toOption
  | _ => []

def sentTo (peer : Address) (entries : List (Entry σ δ)) : List Bytes :=
  entries.flatMap (Entry.datagrams peer)

theorem mem_datagrams {peer : Address} {e : Entry σ δ} {bytes : Bytes} : bytes ∈ e.datagrams peer ↔
    ∃ net now, e.move = .transmit net now ∧
      ∃ c ∈ e.host.roster.channels, c.peer = peer ∧ (c.build now).1.encode = .ok bytes := by
  have hencode (c : Channel) (now : Time) :
      (c.build now).1.encode.toOption = some bytes ↔ (c.build now).1.encode = .ok bytes := by
    cases (c.build now).1.encode <;> simp [Except.toOption]
  unfold Entry.datagrams
  cases e.move with
  | transmit net now => simp [hencode, and_assoc]
  | _ => simp

theorem length_of_mem_sentTo {peer : Address} {entries : List (Entry σ δ)} {bytes : Bytes}
    (h : bytes ∈ sentTo peer entries) : bytes.length = Packet.maxSize := by
  obtain ⟨e, -, he⟩ := List.mem_flatMap.mp h
  obtain ⟨net, now, -, c, -, -, hencode⟩ := mem_datagrams.mp he
  exact Packet.length_of_encode hencode

theorem mem_sent_transmit {h : Host δ} {net : Script} {now : Time} {peer : Address}
    {bytes : Bytes} :
    (peer, bytes) ∈ (h.transmit net now).2.sent ↔
      bytes ∈ Entry.datagrams peer { host := h, move := .transmit net now } ∨
      (peer, bytes) ∈ net.sent := by
  rw [mem_datagrams]
  simp only [Host.transmit, Host.mem_sent_transmitAll, HostMove.transmit.injEq]
  constructor
  · rintro (hc | hold)
    · exact .inl ⟨net, now, ⟨rfl, rfl⟩, hc⟩
    · exact .inr hold
  · rintro (⟨_, _, ⟨rfl, rfl⟩, hc⟩ | hold)
    · exact .inl hc
    · exact .inr hold

section
variable [Doorman δ] {entries : List (Entry σ δ)} {peer : Address} {answer : Bool}

theorem Review.answered {e : Entry σ δ} {d : Delivery} {credentials : Credentials}
    (h : Review peer answer entries e d credentials) : Answered peer (entries ++ [e]) answer :=
  ⟨entries, e, [], d, credentials, rfl, h⟩

theorem answered_concat {e : Entry σ δ} (ha : Answered peer (entries ++ [e]) answer) :
    Answered peer entries answer ∨ ∃ d credentials, Review peer answer entries e d credentials := by
  obtain ⟨earlier, e', later, d, credentials, hentries, hreview⟩ := ha
  rcases List.eq_nil_or_concat later with rfl | ⟨later, last, rfl⟩
  · obtain ⟨rfl, hlast⟩ := List.append_inj' hentries rfl
    obtain rfl := List.singleton_inj.mp hlast
    exact .inr ⟨d, credentials, hreview⟩
  · have hsplit : entries ++ [e] = (earlier ++ e' :: later) ++ [last] := by
      rw [hentries, List.concat_eq_append, List.append_assoc, List.cons_append]
    obtain ⟨rfl, -⟩ := List.append_inj' hsplit rfl
    exact .inl ⟨earlier, e', later, d, credentials, rfl, hreview⟩

theorem Delivered.of_since [Transport σ] {d : Delivery}
    (hd : Delivered peer d (since peer entries)) : Delivered peer d entries := by
  obtain ⟨e, he, hheard⟩ := hd
  exact ⟨e, (List.rtakeWhile_suffix _ _).subset he, hheard⟩

end

-- ---------------------------------------------------------------------------
-- Runs, move by move
-- ---------------------------------------------------------------------------

section
variable [Transport σ] [Doorman δ] {b : Daybook σ δ} {m : HostMove σ} {peer : Address}

/-- The daybooks of a host that makes its moves in any order, and handles only
what was delivered. -/
inductive Run : Daybook σ δ → Prop
  | start (config : HostConfig) (doorman : δ) : Run { host := .make config doorman }
  | record {b : Daybook σ δ} {m : HostMove σ} : Run b →
    (∀ peer d, m = .handle peer d → Delivered peer d b.entries) → Run (b.record m)

theorem Run.earlier {before after : List (Entry σ δ)} {e : Entry σ δ} (hb : b.Run)
    (hentries : b.entries = before ++ e :: after) :
    ({ host := e.host, entries := before } : Daybook σ δ).Run := by
  induction hb generalizing after with
  | start config doorman => cases before <;> cases hentries
  | @record b m hb _ ih =>
    rcases List.eq_nil_or_concat after with rfl | ⟨later, last, rfl⟩
    · obtain ⟨rfl, hlast⟩ := List.append_inj' hentries rfl
      obtain rfl := List.singleton_inj.mp hlast
      exact hb
    · have hsplit :
          b.entries ++ [{ host := b.host, move := m }] = (before ++ e :: later) ++ [last] := by
        rw [← entries_record, hentries, List.concat_eq_append, List.append_assoc, List.cons_append]
      exact ih (List.append_inj' hsplit rfl).1

theorem Run.record_all (hb : b.Run) {moves : List (HostMove σ)}
    (hmoves : ∀ peer d, .handle peer d ∈ moves → Delivered peer d b.entries) :
    (moves.foldl Daybook.record b).Run := by
  induction moves generalizing b with
  | nil => exact hb
  | cons m rest ih =>
    apply ih (hb.record ?_) ?_
    · rintro peer d rfl
      exact hmoves peer d List.mem_cons_self
    · intro peer d hd
      exact (hmoves peer d (List.mem_cons_of_mem _ hd)).concat _

theorem Run.tick (hb : b.Run) (hsound : b.Sound) (net : σ) (now : Time) : (b.tick net now).Run := by
  let inflow := (Transport.receive net Packet.maxSize).1
  obtain ⟨-, hdelivered⟩ :=
    (hsound.record_of_ne (m := .settle) (by simp)).hearAll now inflow.datagrams
  rw [tick_eq, Host.tickMoves]
  simp only [List.cons_append, List.append_assoc, List.foldl_cons]
  rw [List.foldl_append]
  apply Run.record_all
  · apply (hb.record (by simp)).record_all
    simp
  · -- what a tick handles in the end came in at its beginning
    intro peer d hd
    apply Delivered.of_since
    apply hdelivered peer d
    simp only [List.mem_append, List.mem_map, Option.mem_toList] at hd
    rcases hd with ⟨text, -, hfail⟩ | ⟨x, hx, hhandle⟩ | hlast
    · cases hfail
    · obtain ⟨rfl, rfl⟩ := HostMove.handle.inj hhandle
      exact .inr hx
    · simp at hlast

theorem Reachable.run (hb : b.Reachable) : b.Run := by
  induction hb with
  | start config doorman => exact .start config doorman
  | tick net now hb ih => exact ih.tick hb.sound net now
  | act _ howners ih =>
    refine ih.record fun peer d hm => ?_
    rw [hm] at howners
    cases howners

theorem Run.distinct (hb : b.Run) : b.host.roster.Distinct := by
  induction hb with
  | start config doorman => exact List.nodup_nil
  | record _ _ ih => exact Host.act_distinct ih _

end

-- ---------------------------------------------------------------------------
-- Verdicts that are held or sent
-- ---------------------------------------------------------------------------

section
variable [Transport σ] [Doorman δ] {b : Daybook σ δ} {m : HostMove σ} {peer : Address} {x : Message}

/-- What is held for a peer, and what was sent to it, tells nothing but answers
that the doorman gave. -/
structure Candid (b : Daybook σ δ) : Prop where
  held : ∀ peer x, b.host.roster.Holds peer x → x.Honest (Answered peer b.entries)
  sent : ∀ peer, ∀ bytes ∈ sentTo peer b.entries, ∀ p, Packet.decode bytes = .ok p →
    ∀ x ∈ p.messages, x.Honest (Answered peer b.entries)

/-- What is queued for a peer is no verdict, or the answer of the doorman. -/
theorem honest_of_queued (hverdict : m.isVerdict = false)
    (hdelivered : ∀ peer d, m = .handle peer d → Delivered peer d b.entries)
    (hx : b.host.Queued m peer x) : x.Honest (Answered peer (b.record m).entries) := by
  cases hx with
  | sent hx => exact .of_mem_pieces (by simpa [HostMove.isVerdict] using hverdict) hx
  | spread hx => exact .of_mem_pieces (by simpa [HostMove.isVerdict] using hverdict) hx
  | checking hx => exact .of_mem_pieces (by decide) hx
  | answer hc hkind hidle hdecode hx =>
    obtain rfl := List.mem_singleton.mp hx
    intro _
    exact ⟨rfl, _, rfl, Review.answered
      { delivered := hdelivered peer _ rfl
        handled := rfl
        kind_eq := hkind
        decodes := hdecode
        idle := by rw [hc, Option.map_some, hidle]
        answers := rfl }⟩

theorem Candid.record (hb : b.Candid) (hverdict : m.isVerdict = false)
    (hdelivered : ∀ peer d, m = .handle peer d → Delivered peer d b.entries) :
    (b.record m).Candid where
  held peer x hx := by
    rcases Host.act_holds hx with hqueued | hold
    · exact honest_of_queued hverdict hdelivered hqueued
    · exact (hb.held peer x hold).mono fun _ ha => ha.append _
  sent peer bytes hbytes p hp x hx := by
    rw [entries_record, sentTo, List.flatMap_append, List.mem_append] at hbytes
    suffices x.Honest (Answered peer b.entries) from this.mono fun _ ha => ha.append _
    rcases hbytes with hold | hnew
    · exact hb.sent peer bytes hold p hp x hx
    · rw [List.flatMap_singleton] at hnew
      obtain ⟨net, now, -, c, hc, hpeer, hencode⟩ := mem_datagrams.mp hnew
      rw [Channel.messages_of_decode hencode hp] at hx
      exact hb.held peer x ⟨c, hc, hpeer, Channel.holds_of_mem_build hx⟩

theorem Run.candid (hb : b.Run) (hown : ∀ e ∈ b.entries, e.move.isVerdict = false) : b.Candid := by
  induction hb with
  | start config doorman =>
    refine ⟨fun peer x hx => ?_, fun peer bytes hbytes => ?_⟩
    · obtain ⟨c, hc, -⟩ := hx
      cases hc
    · cases hbytes
  | record _ hdelivered ih =>
    rw [entries_record] at hown
    refine (ih fun e he => hown e (List.mem_append_left _ he)).record ?_ hdelivered
    exact hown _ (List.mem_append_right _ (List.mem_singleton_self _))

-- ---------------------------------------------------------------------------
-- Peers that were admitted
-- ---------------------------------------------------------------------------

theorem Run.standing (hb : b.Run) (hkept : ∀ e ∈ b.entries, .timedOut peer ∉ e.emitted)
    (ha : Answered peer b.entries true) :
    ∃ c, b.host.channel? peer = some c ∧ (c.phase = .admitted ∨ c.phase = .playing) := by
  induction hb with
  | start config doorman =>
    obtain ⟨earlier, e, later, d, credentials, hentries, -⟩ := ha
    simp at hentries
  | @record b m hb hdelivered ih =>
    rw [entries_record] at hkept ha
    rw [host_record]
    have hlast : .timedOut peer ∉ Entry.emitted { host := b.host, move := m } :=
      hkept _ (List.mem_append_right _ (List.mem_singleton_self _))
    rcases answered_concat ha with hold | ⟨d, credentials, hreview⟩
    · -- the peer was in before the move, and only a timeout takes its channel away
      obtain ⟨c, hc, hphase⟩ := ih (fun e he => hkept e (List.mem_append_left _ he)) hold
      have hfate := Host.act_fate hb.distinct m peer
      rw [hc] at hfate
      generalize hy : (b.host.act m).channel? peer = y at hfate
      cases hfate with
      | kept hsame => exact ⟨_, rfl, hsame ▸ hphase⟩
      | @removed now => exact absurd (Host.timedOut_of_expire hc hy) hlast
      | reviewed _ _ hidle => simp [hidle] at hphase
      | joined _ hplaying => exact ⟨_, rfl, .inr hplaying⟩
    · obtain ⟨-, hmove, hkind, hdecode, hidle, hanswer⟩ := hreview
      obtain rfl : m = .handle peer d := hmove
      obtain ⟨c, hc, hphase⟩ := Option.map_eq_some_iff.mp hidle
      obtain ⟨c', hpeer, hphase', -, hset, -⟩ := b.host.review_spec credentials hphase
      rw [Roster.peer_of_find? hc, hanswer, if_pos rfl] at hphase'
      refine ⟨c', ?_, .inl hphase'⟩
      rw [Host.act, Host.handle_review hc hkind hphase hdecode, Host.channel?_of_set hc hpeer hset,
        if_pos rfl]

end

end Daybook

end Courier
