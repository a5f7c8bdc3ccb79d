import Mathlib.Tactic.Linarith
import Mathlib.Tactic.Ring
import Courier.Metronome

/-!
# A metronome does not burst

With each tick the schedule moves on by at least one interval
(`nextTick_add_le_advance`), and right after a tick it is at most one interval
away from it (`nextTick_near_advance`). A tick that is very late thus shifts the
schedule, and a loop catches up on two intervals at most (`bursts_bounded`).
-/

namespace Courier.Metronome

/-- Each tick starts when it is due. -/
def Paced (m : Metronome) : List Time → Prop
  | [] => True
  | t :: rest => m.isDue t = true ∧ (m.advance t).Paced rest

instance decidablePaced : (m : Metronome) → (times : List Time) → Decidable (m.Paced times)
  | _, [] => inferInstanceAs (Decidable True)
  | m, t :: rest =>
    have := decidablePaced (m.advance t) rest
    inferInstanceAs (Decidable (m.isDue t = true ∧ (m.advance t).Paced rest))

def advanceAll (m : Metronome) (times : List Time) : Metronome := times.foldl advance m

section
variable {m : Metronome} {t : Time} {times before after : List Time}

@[simp] theorem interval_advance (m : Metronome) (t : Time) : (m.advance t).interval = m.interval :=
  rfl

@[simp] theorem interval_advanceAll (m : Metronome) (times : List Time) :
    (m.advanceAll times).interval = m.interval := by
  induction times generalizing m with
  | nil => rfl
  | cons t rest ih => exact ih (m.advance t)

theorem isDue_iff_le : m.isDue t = true ↔ m.nextTick ≤ t := decide_eq_true_iff

/-- The schedule moves on by at least one interval. -/
theorem nextTick_add_le_advance (m : Metronome) (t : Time) :
    m.nextTick + m.interval ≤ (m.advance t).nextTick := by
  simp only [advance, Time, Interval]
  split
  · omega
  · omega

theorem nextTick_near_advance (hdue : m.isDue t = true) :
    t ≤ (m.advance t).nextTick + m.interval ∧ (m.advance t).nextTick ≤ t + m.interval := by
  simp only [isDue_iff_le, Time] at hdue
  simp only [advance, Time, Interval]
  split
  · omega
  · omega

theorem paced_append :
    m.Paced (before ++ after) ↔ m.Paced before ∧ (m.advanceAll before).Paced after := by
  induction before generalizing m with
  | nil => exact ⟨fun h => ⟨trivial, h⟩, fun h => h.2⟩
  | cons t rest ih =>
    rw [List.cons_append, Paced, Paced, ih, and_assoc]
    rfl

/-- The ticks keep to the schedule. -/
theorem Paced.schedule_le (h : m.Paced times) (j : Nat) (hj : j < times.length) :
    m.nextTick + j * m.interval ≤ times[j] := by
  induction times generalizing m j with
  | nil => cases hj
  | cons t rest ih =>
    obtain ⟨hdue, hrest⟩ := h
    cases j with
    | zero => simpa using isDue_iff_le.mp hdue
    | succ j =>
      have hj : j < rest.length := Nat.lt_of_succ_lt_succ hj
      calc m.nextTick + (j + 1) * m.interval
          = m.nextTick + m.interval + j * m.interval := by ring
        _ ≤ (m.advance t).nextTick + j * m.interval :=
          Nat.add_le_add_right (m.nextTick_add_le_advance t) _
        _ ≤ rest[j] := ih hrest j hj

theorem Paced.apart (h : m.Paced times) {i j : Nat} (hij : i < j) (hj : j < times.length) :
    times[i] + (j - i) * m.interval ≤ times[j] + 2 * m.interval := by
  have hi : i < times.length := hij.trans hj
  have hsplit : times = times.take i ++ times[i] :: times.drop (i + 1) := by
    rw [← List.drop_eq_getElem_cons hi, List.take_append_drop]
  rw [hsplit, paced_append, Paced] at h
  obtain ⟨-, hdue, hrest⟩ := h
  obtain ⟨hnear, -⟩ := nextTick_near_advance hdue
  have hlater := hrest.schedule_le (j - (i + 1)) (by rw [List.length_drop]; omega)
  have hj : i + 1 + (j - (i + 1)) = j := by omega
  simp only [List.getElem_drop, hj, interval_advance, interval_advanceAll] at hnear hlater
  have hsteps : (j - i) * m.interval = (j - (i + 1)) * m.interval + m.interval := by
    rw [← Nat.succ_mul]
    congr 1
    omega
  rw [hsteps]
  simp only [Time, Interval] at hnear hlater ⊢
  omega

theorem Paced.countP_mul_le (h : m.Paced times) (stop : Time) :
    times.countP (· ≤ stop) * m.interval ≤ stop + m.interval - m.nextTick := by
  induction times generalizing m with
  | nil => simp
  | cons t rest ih =>
    obtain ⟨hdue, hrest⟩ := h
    have hrest := ih hrest
    have hstep := m.nextTick_add_le_advance t
    have hdue := isDue_iff_le.mp hdue
    simp only [interval_advance, Time, Interval] at hrest hstep hdue ⊢
    by_cases ht : t ≤ stop
    · rw [List.countP_cons_of_pos (by simpa using ht), Nat.succ_mul]
      simp only [Time] at ht
      omega
    · rw [List.countP_cons_of_neg (by simpa using ht)]
      omega

/-- A span of time holds at most three ticks more than it holds intervals. -/
theorem Paced.countP_span_mul_le (h : m.Paced times) (start : Time) (span : Interval) :
    times.countP (fun t => start ≤ t ∧ t ≤ start + span) * m.interval ≤ span + 3 * m.interval := by
  induction times generalizing m with
  | nil => simp
  | cons t rest ih =>
    obtain ⟨hdue, hrest⟩ := h
    by_cases ht : start ≤ t ∧ t ≤ start + span
    · -- those after the first one are counted from the schedule it leaves behind
      obtain ⟨hnear, -⟩ := nextTick_near_advance hdue
      have hmono :
          rest.countP (fun t => start ≤ t ∧ t ≤ start + span) ≤ rest.countP (· ≤ start + span) :=
        List.countP_mono_left fun t _ ht => decide_eq_true (of_decide_eq_true ht).2
      have hlater :=
        (Nat.mul_le_mul_right m.interval hmono).trans (hrest.countP_mul_le (start + span))
      rw [List.countP_cons_of_pos (by simpa using ht), Nat.succ_mul]
      have hstart := ht.1
      simp only [interval_advance, Time, Interval] at hnear hlater hstart ⊢
      omega
    · rw [List.countP_cons_of_neg (by simpa using ht)]
      exact ih (m := m.advance t) hrest

/-- Of a metronome, new or not, whose ticks start only when they are due, however
late: the `j`-th tick comes no earlier than `j - i - 2` intervals after the `i`-th, so
a span of time holds at most three ticks more than it holds intervals. After
each tick the next one is planned within an interval of it. -/
theorem bursts_bounded (h : m.Paced times) :
    (∀ i j : Nat, (_ : i < j) → (_ : j < times.length) →
        ((j : Int) - i - 2) * m.interval ≤ (times[j] : Int) - times[i]) ∧
      (∀ start span,
        times.countP (fun t => start ≤ t ∧ t ≤ start + span) * m.interval ≤ span + 3 * m.interval ∧
          (m.interval ≠ 0 →
            times.countP (fun t => start ≤ t ∧ t ≤ start + span) ≤ span / m.interval + 3)) ∧
      ∀ before t after, times = before ++ t :: after →
        t ≤ (m.advanceAll (before ++ [t])).nextTick + m.interval ∧
          (m.advanceAll (before ++ [t])).nextTick ≤ t + m.interval := by
  refine ⟨fun i j hij hj => ?_, fun start span => ?_, ?_⟩
  · have hapart := Int.ofNat_le.mpr (h.apart hij hj)
    push_cast [hij.le] at hapart
    linarith
  · have hcount := h.countP_span_mul_le start span
    refine ⟨hcount, fun hpos => ?_⟩
    have hpos := Nat.pos_of_ne_zero hpos
    rw [← Nat.add_mul_div_right _ _ hpos]
    exact (Nat.le_div_iff_mul_le hpos).mpr hcount
  · rintro before t after rfl
    rw [paced_append] at h
    obtain ⟨-, hdue, -⟩ := h
    have hnear := nextTick_near_advance hdue
    rw [interval_advanceAll] at hnear
    rwa [advanceAll, List.foldl_append]

end

def lateTicks : List Time := [0, 300, 300, 300, 400, 2500].map Interval.millis

theorem bursts_bounded_lateTicks :
    (make 10 0).Paced lateTicks ∧ (make 10 0).interval = Interval.millis 100 ∧
      ((3 : Int) - 1 - 2) * Interval.millis 100 ≤ (lateTicks[3] : Int) - lateTicks[1] ∧
      lateTicks.countP (fun t => Interval.millis 300 ≤ t ∧ t ≤ Interval.millis 300 + 0) = 3 ∧
      lateTicks.countP (fun t => Interval.millis 300 ≤ t ∧ t ≤ Interval.millis 300 + 0) ≤
        0 / Interval.millis 100 + 3 ∧
      Interval.millis 2500 ≤ ((make 10 0).advanceAll lateTicks).nextTick + Interval.millis 100 := by
  have hpaced : (make 10 0).Paced lateTicks := by decide
  obtain ⟨hapart, hspan, hnear⟩ := bursts_bounded hpaced
  exact ⟨hpaced, rfl, hapart 1 3 (by decide) (by decide), rfl,
    (hspan (Interval.millis 300) 0).2 (by decide), (hnear (lateTicks.take 5) _ [] rfl).1⟩

end Courier.Metronome
