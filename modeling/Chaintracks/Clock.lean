import Chaintracks.Library.Binary64

/-!
# The database's clock

SQLite keeps an instant as whole milliseconds of the Julian day. Its seconds since the
epoch are exact; `julianday` is a double of days, and what is computed from it is computed
in doubles: the milliseconds of `LEASE_LEFT_SQL` (`Chaintracks.castMs`) and the seconds a
claim has been in flight (`Chaintracks.elapsedSeconds`). A day has more milliseconds than
a double of days near the present has room for in its last places, so both come out a
little off, and a cast to an integer turns a little short into one millisecond short
(`Chaintracks.castMs_eq_or`).
-/

namespace Chaintracks

/-- An instant of the database's clock: milliseconds since the epoch, within the years
SQLite's date functions answer for. -/
structure Instant where
  ms : Nat
  inRange : ms < 253402300800000
  deriving DecidableEq

/-- The epoch. -/
def Instant.epoch : Instant := ⟨0, by decide⟩

/-- `CAST(strftime('%s', 'now') AS INTEGER)`, `unixepoch()`. -/
def Instant.seconds (t : Instant) : Nat := t.ms / 1000

/-- The instant `datetime('now')` keeps: the second's start. -/
def Instant.datetime (t : Instant) : Instant where
  ms := t.seconds * 1000
  inRange := lt_of_le_of_lt (Nat.div_mul_le_self _ _) t.inRange

/-- `julianday`: days since noon of the first Julian day, a double. -/
def julianday (t : Instant) : ℚ := Binary64.round ((t.ms + 210866760000000) / 86400000)

/-- `CAST((julianday('now') - 2440587.5) * 86400000.0 AS INTEGER)`. -/
def castMs (t : Instant) : ℤ :=
  Binary64.truncate
    (Binary64.round (Binary64.round (julianday t - 4881175 / 2) * 86400000))

/-- `(julianday('now') - julianday(since)) * 86400`. -/
def elapsedSeconds (now since : Instant) : ℚ :=
  Binary64.round (Binary64.round (julianday now - julianday since) * 86400)

variable {t now since : Instant}

/-- A Julian day is off by less than a thousandth of a millionth. -/
theorem julianday_error (t : Instant) :
    |julianday t - (t.ms + 210866760000000) / 86400000| ≤ 1 / 10 ^ 9 := by
  have hms : (t.ms : ℚ) < 253402300800000 := by exact_mod_cast t.inRange
  have hnonneg : (0 : ℚ) ≤ t.ms := Nat.cast_nonneg _
  refine (Binary64.abs_round_sub_le_of_abs_le (y := 6000000) ?_).trans (by norm_num)
  rw [abs_le]
  constructor <;> linarith

/-- What the cast is taken of is off by less than half a millisecond. -/
theorem castMs_error (t : Instant) :
    |Binary64.round (Binary64.round (julianday t - 4881175 / 2) * 86400000) - t.ms| < 1 / 2 := by
  have hms : (t.ms : ℚ) < 253402300800000 := by exact_mod_cast t.inRange
  have hnonneg : (0 : ℚ) ≤ t.ms := Nat.cast_nonneg _
  have hday := abs_le.mp (julianday_error t)
  have hdays : |julianday t - 4881175 / 2| ≤ 6000000 := by
    rw [abs_le]
    constructor <;> linarith
  have hshift := abs_le.mp (Binary64.abs_round_sub_le_of_abs_le hdays)
  set days := Binary64.round (julianday t - 4881175 / 2)
  have hproduct : |days * 86400000| ≤ 10 ^ 15 := by
    rw [abs_le]
    constructor <;> linarith
  have hlast := abs_le.mp (Binary64.abs_round_sub_le_of_abs_le hproduct)
  rw [abs_lt]
  constructor <;> linarith

/-- **The cast is the instant, or one millisecond short of it.** -/
theorem castMs_eq_or (t : Instant) : castMs t = t.ms ∨ castMs t = t.ms - 1 := by
  have herror := abs_lt.mp (castMs_error t)
  unfold castMs
  set v := Binary64.round (Binary64.round (julianday t - 4881175 / 2) * 86400000)
  by_cases hle : (t.ms : ℚ) ≤ v
  · refine .inl (Binary64.truncate_eq (Int.natCast_nonneg _) (by exact_mod_cast hle) ?_)
    push_cast
    linarith
  · rcases Nat.eq_zero_or_pos t.ms with hzero | hpos
    · -- just below zero the cast goes up to zero
      left
      rw [hzero, Nat.cast_zero] at herror hle
      rw [hzero, Nat.cast_zero, Binary64.truncate, if_neg hle, Int.ceil_eq_iff]
      constructor <;> push_cast <;> linarith
    · right
      have hpos : (1 : ℤ) ≤ t.ms := by exact_mod_cast hpos
      refine Binary64.truncate_eq (by omega) ?_ ?_ <;> push_cast <;> linarith

/-- **A span of more than a second's thousandth over so many seconds is seen.** -/
theorem le_elapsedSeconds {seconds : Nat} (hs : seconds ≤ 1000)
    (h : since.ms + seconds * 1000 + 1 ≤ now.ms) : seconds ≤ elapsedSeconds now since := by
  have hms : (now.ms : ℚ) < 253402300800000 := by exact_mod_cast now.inRange
  have hnonneg : (0 : ℚ) ≤ since.ms := Nat.cast_nonneg _
  have hs : (seconds : ℚ) ≤ 1000 := by exact_mod_cast hs
  have hs0 : (0 : ℚ) ≤ seconds := Nat.cast_nonneg _
  have h : (since.ms : ℚ) + seconds * 1000 + 1 ≤ now.ms := by exact_mod_cast h
  have hnow := abs_le.mp (julianday_error now)
  have hsince := abs_le.mp (julianday_error since)
  have hdiff := abs_le.mp (Binary64.abs_round_sub_le (julianday now - julianday since))
  have hpos : 0 ≤ julianday now - julianday since := by linarith
  rw [abs_of_nonneg hpos] at hdiff
  set days := Binary64.round (julianday now - julianday since)
  have hdays : (julianday now - julianday since) * (1 - 1 / 2 ^ 53) ≤ days := by linarith
  have hdays0 : 0 ≤ days * 86400 := by
    have : 0 ≤ (julianday now - julianday since) * (1 - 1 / 2 ^ 53) :=
      mul_nonneg hpos (by norm_num)
    linarith
  have hlast := abs_le.mp (Binary64.abs_round_sub_le (days * 86400))
  rw [abs_of_nonneg hdays0] at hlast
  unfold elapsedSeconds
  change _ ≤ Binary64.round (days * 86400)
  -- each rounding loses one part in 2 ^ 53, and the span has a millisecond to spare
  have hspan : (seconds : ℚ) / 86400 + 1 / 86400000 - 2 / 10 ^ 9 ≤
      julianday now - julianday since := by linarith
  nlinarith

end Chaintracks
