import Inbetween.Proofs.Landings
import Inbetween.Proofs.Quotients

/-!
# Windows that are too short or too long

A window follows the clock at a pace of one over its duration. For the shortest durations that is
out of range, and no time at all at an infinite pace is no number. A duration that is itself out of
range makes a pace of zero, and an elapsed time that is out of range as well is no number at that
pace. In between a window opens at ratio 0, and every time of the clock has a ratio.
-/

namespace Inbetween

open Act Binary64 Evaluate

/-! ## Durations -/

section Durations

variable {opens closes : Float} (hopens : opens.isFinite = true) (hcloses : closes.isFinite = true)

include hopens hcloses

/-- One over a duration that is too short is out of range, since the duration itself is exact. -/
theorem rate_of_short (hlt : toRat opens < toRat closes)
    (hshort : toRat closes - toRat opens ≤ 2 ^ (-1024 : ℤ)) :
    (1.0 / (closes - opens)).isFinite = false ∧ (1.0 / (closes - opens)).isNaN = false := by
  have hpos : 0 < toRat closes - toRat opens := sub_pos.mpr hlt
  have hsmall : |toRat closes - toRat opens| ≤ 2 ^ (-1021 : ℤ) := by
    rw [abs_of_pos hpos]
    exact hshort.trans (zpow_le_zpow_right₀ one_le_two (by decide))
  obtain ⟨hfinite, hexact⟩ := toRat_sub_of_small hcloses hopens hsmall
  rw [← hexact] at hpos hshort
  refine ⟨isFinite_div_of_overflow one_eq.1 hfinite hpos.ne' ?_,
    isNaN_float_div (isNaN_of_isFinite one_eq.1) hfinite hpos.ne'⟩
  rw [one_eq.2, abs_of_pos (one_div_pos.mpr hpos), le_one_div (by positivity) hpos]
  exact hshort.trans_eq (by norm_num)

/-- The next longer duration is far enough from that, however the difference is rounded. -/
theorem le_duration_of_long (hlong : 2 ^ (-1024 : ℤ) < toRat closes - toRat opens)
    (hfinite : (closes - opens).isFinite = true) :
    (2 ^ 50 + 1) * 2 ^ (-1074 : ℤ) ≤ toRat (closes - opens) := by
  obtain ⟨n, hn⟩ := exists_multiple_sub hcloses hopens
  have hpos : (0 : ℚ) < 2 ^ (-1074 : ℤ) := by positivity
  have hshortest : (2 : ℚ) ^ (-1024 : ℤ) = 2 ^ 50 * 2 ^ (-1074 : ℤ) := by
    rw [← zpow_natCast, ← zpow_add₀ two_ne_zero]
    rfl
  have hcount : 2 ^ 50 + 1 ≤ n := by
    rw [hn, hshortest] at hlong
    have hlt : (2 : ℚ) ^ 50 < n := lt_of_mul_lt_mul_right hlong hpos.le
    exact_mod_cast hlt
  have hcast : ((2 ^ 50 + 1 : ℤ) : ℚ) = 2 ^ 50 + 1 := by norm_num
  have hgrid : OnGrid ((2 ^ 50 + 1) * 2 ^ (-1074 : ℤ)) :=
    ⟨2 ^ 50 + 1, -1074, by decide, le_rfl, by rw [hcast]⟩
  refine (nearest_float_sub hcloses hopens hfinite).rounds.below _ hgrid ?_
  rw [hn]
  exact mul_le_mul_of_nonneg_right (by exact_mod_cast hcount) hpos.le

theorem rate_of_long (hlong : 2 ^ (-1024 : ℤ) < toRat closes - toRat opens)
    (hfinite : (closes - opens).isFinite = true) :
    (1.0 / (closes - opens)).isFinite = true ∧ toRat (1.0 / (closes - opens)) ≠ 0 := by
  have hleast := le_duration_of_long hopens hcloses hlong hfinite
  have hlargest := (le_abs_self _).trans (abs_toRat_le_largest hfinite)
  have hpos : 0 < toRat (closes - opens) := lt_of_lt_of_le (by positivity) hleast
  have hsize : 1 / toRat (closes - opens) ≤ largest := by
    rw [div_le_iff₀ hpos]
    calc (1 : ℚ) = 2 ^ 103 * 2 ^ (-103 : ℤ) := by norm_num
      _ ≤ ((2 ^ 53 - 1) * (2 ^ 50 + 1)) * 2 ^ (-103 : ℤ) := by gcongr; norm_num
      _ = largest * ((2 ^ 50 + 1) * 2 ^ (-1074 : ℤ)) := by
          rw [largest, mul_mul_mul_comm, ← zpow_add₀ two_ne_zero]
          rfl
      _ ≤ largest * toRat (closes - opens) :=
          mul_le_mul_of_nonneg_left hleast (le_trans (by positivity) two_zpow_le_largest)
  have hnonzero : 2 ^ (-1074 : ℤ) ≤ 1 / toRat (closes - opens) := by
    rw [le_div_iff₀ hpos]
    calc 2 ^ (-1074 : ℤ) * toRat (closes - opens)
        ≤ 2 ^ (-1074 : ℤ) * 2 ^ (1024 : ℤ) := by
          gcongr
          exact hlargest.trans largest_lt.le
      _ ≤ 1 := by
          rw [← zpow_add₀ two_ne_zero]
          norm_num
  have hround := isRounded_div one_eq.1 hfinite hpos.ne'
  rw [one_eq.2, abs_of_pos (one_div_pos.mpr hpos)] at hround
  refine ⟨(hround hsize).finite, (hround hsize).rounds.ne_zero ?_⟩
  exact hnonzero.trans (le_abs_self _)

theorem rate_of_overflow (hinfinite : (closes - opens).isFinite = false) :
    (1.0 / (closes - opens)).isFinite = true ∧ toRat (1.0 / (closes - opens)) = 0 :=
  toRat_div_of_infinite one_eq.1 hinfinite
    (isNaN_float_sub (isNaN_of_isFinite hcloses) (isNaN_of_isFinite hopens) (.inl hcloses))

/-! ## Ratios -/

omit hopens hcloses in
theorem pace_ratio_eq (clock : Clock Float) :
    (Window.pace ⟨opens, closes⟩).ratio clock =
      (clock.time - opens) * (1.0 / (closes - opens)) := rfl

/-- The opening has ratio 0, unless the window is too short. -/
theorem ratio_at_opening {clock : Clock Float} (hlt : toRat opens < toRat closes)
    (hstart : (clock.time == opens) = true) :
    (2 ^ (-1024 : ℤ) < toRat closes - toRat opens →
      ((Window.pace ⟨opens, closes⟩).ratio clock == 0.0) = true) ∧
    (toRat closes - toRat opens ≤ 2 ^ (-1024 : ℤ) →
      ((Window.pace ⟨opens, closes⟩).ratio clock).isNaN = true) := by
  rw [pace_ratio_eq]
  obtain ⟨htime, hsame⟩ := (beq_iff hopens).mp hstart
  obtain ⟨helapsed, hzero⟩ := (toRat_sub_eq_zero_iff htime hopens).mpr hsame
  constructor
  · intro hlong
    have hrate : (1.0 / (closes - opens)).isFinite = true := by
      cases hfinite : (closes - opens).isFinite with
      | true => exact (rate_of_long hopens hcloses hlong hfinite).1
      | false => exact (rate_of_overflow hopens hcloses hfinite).1
    rw [beq_iff zero_eq.1, zero_eq.2]
    exact toRat_mul_of_eq_zero helapsed hrate (mul_eq_zero_of_left hzero _)
  · intro hshort
    obtain ⟨hrate, hrate'⟩ := rate_of_short hopens hcloses hlt hshort
    exact (isNaN_float_mul_iff (isNaN_of_isFinite helapsed) hrate').mpr
      (.inl ⟨helapsed, hzero, hrate⟩)

theorem ratio_isNaN_iff {clock : Clock Float} (hlt : toRat opens < toRat closes)
    (htime : clock.time.isFinite = true) :
    ((Window.pace ⟨opens, closes⟩).ratio clock).isNaN = true ↔
      (toRat closes - toRat opens ≤ 2 ^ (-1024 : ℤ) ∧ (clock.time == opens) = true) ∨
        ((closes - opens).isFinite = false ∧ (clock.time - opens).isFinite = false) := by
  have helapsed : (clock.time - opens).isNaN = false :=
    isNaN_float_sub (isNaN_of_isFinite htime) (isNaN_of_isFinite hopens) (.inl htime)
  have hstart : (clock.time == opens) = true ↔
      (clock.time - opens).isFinite = true ∧ toRat (clock.time - opens) = 0 := by
    rw [beq_iff hopens, toRat_sub_eq_zero_iff htime hopens, and_iff_right htime]
  rw [pace_ratio_eq]
  cases hduration : (closes - opens).isFinite with
  | false =>
      obtain ⟨hrate, hzero⟩ := rate_of_overflow hopens hcloses hduration
      have hlong : ¬ toRat closes - toRat opens ≤ 2 ^ (-1024 : ℤ) := fun hshort =>
        absurd (rate_of_short hopens hcloses hlt hshort).1 (by simp [hrate])
      rw [isNaN_float_mul_iff helapsed (isNaN_of_isFinite hrate), hrate]
      simp only [hzero, hlong, reduceCtorEq, and_false, false_and, and_true, true_and, false_or]
  | true =>
      rw [hstart]
      rcases le_or_gt (toRat closes - toRat opens) (2 ^ (-1024 : ℤ)) with hshort | hlong
      · obtain ⟨hrate, hrate'⟩ := rate_of_short hopens hcloses hlt hshort
        rw [isNaN_float_mul_iff helapsed hrate', hrate]
        simp only [hshort, reduceCtorEq, and_false, false_and, and_true, true_and, or_false]
      · obtain ⟨hrate, hne⟩ := rate_of_long hopens hcloses hlong hduration
        rw [isNaN_float_mul_iff helapsed (isNaN_of_isFinite hrate), hrate]
        simp only [hne, hlong.not_ge, reduceCtorEq, and_false, false_and, or_false]

end Durations

/-! ## Tweens at their opening -/

theorem Window.make_eq_ok {α : Type} [Scalar α] {opens closes : α} {win : Window α} :
    Window.make opens closes = .ok win ↔ opens < closes ∧ win = ⟨opens, closes⟩ := by
  rw [Window.make]
  split
  · rename_i h
    simp [h, eq_comm]
  · rename_i h
    simp [h]

/-- No mode moves a zero, but it may lose its sign. -/
theorem Extend.normalize_of_zero (extend : Extend) {z : Float} (hz : (z == 0.0) = true) :
    ∃ z', extend.normalize z = .along z' ∧ (z' == 0.0) = true := by
  obtain ⟨hfinite, hzero⟩ := (beq_iff zero_eq.1).mp hz
  rw [zero_eq.2] at hzero
  rcases eq_zero_or_eq_neg_zero hfinite hzero with rfl | rfl
  · exact ⟨0.0, extend.normalize_ends.1, hz⟩
  · cases extend <;> exact ⟨_, rfl, by decide +kernel⟩

theorem Extend.normalize_nan (extend : Extend) :
    extend.normalize Float.nan = .along Float.nan := by
  cases extend <;> decide +kernel

/-- A blend is a number if the progress is finite, whatever it is. -/
theorem isNaN_lerp {start finish x : Float} (hstart : start.isFinite = true)
    (hspan : (finish - start).isFinite = true) (hx : x.isFinite = true) :
    (Curve.lerp start finish x).isNaN = false := by
  have hpart : ((finish - start) * x).isNaN = false := by
    rw [← Bool.not_eq_true,
      isNaN_float_mul_iff (isNaN_of_isFinite hspan) (isNaN_of_isFinite hx), hspan, hx]
    simp
  exact isNaN_float_add (isNaN_of_isFinite hstart) hpart (.inl hstart)

theorem isNaN_lerp_right (start finish : Float) {x : Float} (hx : x.isNaN = true) :
    (Curve.lerp start finish x).isNaN = true :=
  isNaN_float_add_right start (isNaN_float_mul_right _ hx)

/-- **A window has a ratio at every time unless it is too short or too long.** The ratio of a finite
clock time is no number just if the window is so short that its pace is out of range and the time is
the one at which it opens, or if both the duration and the elapsed time are out of range. A window
that is not too short opens at ratio 0, be it too long or not. So a tween whose difference is in
range reports a number there if progress at 0 is finite, and its start if that progress is 0. In a
window that is too short, even a linear tween reports no number there. -/
theorem pace_isNaN_iff {opens closes : Float} {win : Window Float} (hopens : opens.isFinite = true)
    (hcloses : closes.isFinite = true) (hwin : Window.make opens closes = .ok win) :
    (∀ clock : Clock Float, clock.time.isFinite = true →
      ((win.pace.ratio clock).isNaN = true ↔
        (toRat closes - toRat opens ≤ 2 ^ (-1024 : ℤ) ∧ (clock.time == opens) = true) ∨
          ((closes - opens).isFinite = false ∧ (clock.time - opens).isFinite = false))) ∧
    (∀ clock : Clock Float, (clock.time == opens) = true →
      2 ^ (-1024 : ℤ) < toRat closes - toRat opens → (win.pace.ratio clock == 0.0) = true) ∧
    (∀ {V : Vocabulary} {M : Type} (host : Host Float V M) (i : Interpolation Float V)
      (clock : Clock Float) (w w₁ w₂ : World Float V M) (start finish : Float),
      i.time = .pace win.pace → host.Answers (.read i.start clock) w start w₁ →
      host.Answers (.read i.finish clock) w₁ finish w₂ → ∀ s w',
        (interpolation clock i).Yields host w s w' ↔
          s = Level.sampleAt ⟨start, finish, i.easing, i.extend⟩ (win.pace.ratio clock) ∧
            w' = w₂) ∧
    ∀ (clock : Clock Float) (start finish : Float) (extend : Extend),
      (clock.time == opens) = true →
      (2 ^ (-1024 : ℤ) < toRat closes - toRat opens → start.isFinite = true →
        (finish - start).isFinite = true → ∀ mode : Easing, ∃ z v,
          Level.sampleAt ⟨start, finish, mode, extend⟩ (win.pace.ratio clock) = .value v ∧
          (z == 0.0) = true ∧ ((mode.apply z).isFinite = true → v.isNaN = false) ∧
          ((mode.apply z == 0.0) = true → (v == start) = true)) ∧
      (toRat closes - toRat opens ≤ 2 ^ (-1024 : ℤ) → ∃ v,
        Level.sampleAt ⟨start, finish, .linear, extend⟩ (win.pace.ratio clock) = .value v ∧
          v.isNaN = true) := by
  obtain ⟨hopen, rfl⟩ := Window.make_eq_ok.mp hwin
  have hlt : toRat opens < toRat closes := (lt_iff hopens hcloses).mp hopen
  refine ⟨?_, ?_, ?_, ?_⟩
  · intro clock htime
    exact ratio_isNaN_iff hopens hcloses hlt htime
  · intro clock hstart hlong
    exact (ratio_at_opening hopens hcloses hlt hstart).1 hlong
  · intro V M host i clock w w₁ w₂ start finish hpace hx hy s w'
    have hratio : (ratio clock i.time).Yields host w ((Window.pace ⟨opens, closes⟩).ratio clock)
        w := by
      rw [hpace, ratio]
      exact yields_done.mpr ⟨rfl, rfl⟩
    exact (yields_interpolation.mpr
      ⟨_, w, start, w₁, finish, hratio, hx, hy, rfl⟩).yields_iff
  · intro clock start finish extend hopening
    obtain ⟨hzero, hnan⟩ := ratio_at_opening hopens hcloses hlt hopening
    constructor
    · intro hlong hstart hspan mode
      obtain ⟨z, hz, hz'⟩ := extend.normalize_of_zero (hzero hlong)
      refine ⟨z, Curve.lerp start finish (mode.apply z), ?_, hz', ?_, ?_⟩
      · exact congrArg (Phase.blend mode start finish) hz
      · intro hprogress
        exact isNaN_lerp hstart hspan hprogress
      · intro hprogress
        obtain ⟨hbegins, hnothing⟩ := (beq_iff zero_eq.1).mp hprogress
        rw [zero_eq.2] at hnothing
        exact (beq_iff hstart).mpr (lerp_of_eq_zero hstart hbegins hspan hnothing)
    · intro hshort
      have hratio : (Window.pace ⟨opens, closes⟩).ratio clock = Float.nan := by
        have h := hnan hshort
        rwa [Float.isNaN_eq_decide_eq_nan, decide_eq_true_eq] at h
      refine ⟨Curve.lerp start finish Float.nan, ?_,
        isNaN_lerp_right start finish (by decide +kernel)⟩
      rw [Level.sampleAt, hratio, extend.normalize_nan]
      rfl

namespace Blink

/-! Tweens from 3 to 5 in the shortest of windows. -/

/-- What such a tween reports when its window opens. -/
def opening (win : Window Float) : Sample Float :=
  Level.sampleAt ⟨3.0, 5.0, .linear, .constant⟩ (win.pace.ratio (.startingAt win.opens))

/-- A window of about twice the length that is too short opens at the start. -/
theorem opens_at_start :
    ∃ win : Window Float, Window.make 0.0 1e-308 = .ok win ∧
      (win.pace.ratio (.startingAt 0.0) == 0.0) = true ∧
      ∃ v, opening win = .value v ∧ (v == 3.0) = true := by
  obtain ⟨hcloses, hlt, hlong, hstart, hspan⟩ : (1e-308 : Float).isFinite = true ∧
      (0.0 : Float) < 1e-308 ∧ 2 ^ (-1024 : ℤ) < toRat 1e-308 - toRat 0.0 ∧
      (3.0 : Float).isFinite = true ∧ ((5.0 : Float) - 3.0).isFinite = true := by
    decide +kernel
  have hwin := Window.make_eq_ok.mpr ⟨hlt, rfl⟩
  obtain ⟨-, hzero, -, hopens⟩ := pace_isNaN_iff zero_eq.1 hcloses hwin
  have hsame : ((Clock.startingAt (0.0 : Float)).time == 0.0) = true := by decide +kernel
  obtain ⟨z, v, hv, hz, -, hbegins⟩ :=
    (hopens (.startingAt 0.0) 3.0 5.0 .constant hsame).1 hlong hstart hspan .linear
  exact ⟨_, hwin, hzero _ hsame hlong, v, hv, hbegins hz⟩

/-- A tenth of that is a window still, but there is no number when it opens. A window as wide as the
format allows opens at the start, but has no ratio when it closes. -/
theorem opens_at_nan :
    (Window.make 0.0 1e-309 = .ok (⟨0.0, 1e-309⟩ : Window Float) ∧
      ((Window.pace ⟨0.0, 1e-309⟩).ratio (.startingAt (0.0 : Float))).isNaN = true ∧
      opening ⟨0.0, 1e-309⟩ = .value Float.nan ∧ Float.nan.isNaN = true) ∧
    Window.make (-1e308) 1e308 = .ok (⟨-1e308, 1e308⟩ : Window Float) ∧
      ((Window.pace ⟨-1e308, 1e308⟩).ratio (.startingAt (1e308 : Float))).isNaN = true := by
  have hshort : (0.0 : Float) < 1e-309 := by decide +kernel
  have hwide : (-1e308 : Float) < 1e308 := by decide +kernel
  exact ⟨⟨Window.make_eq_ok.mpr ⟨hshort, rfl⟩, by decide +kernel⟩,
    Window.make_eq_ok.mpr ⟨hwide, rfl⟩, by decide +kernel⟩

end Blink

end Inbetween
