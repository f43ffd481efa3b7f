import BekenCam.Gregorian

/-!
# The clock of the device

A unix time as calendar fields. The conversion is one program over the operations of 32-bit words;
it runs on the operations of the processor, which wrap, and on checked ones, which give no result
instead.
-/
namespace BekenCam.SoftRtc

open Gregorian

/-- The operations that can leave the 32 bits. -/
structure WordOps (m : Type → Type) where
  add : UInt32 → UInt32 → m UInt32
  sub : UInt32 → UInt32 → m UInt32
  mul : UInt32 → UInt32 → m UInt32

def wrapping : WordOps Id where
  add a b := a + b
  sub a b := a - b
  mul a b := a * b

def checked : WordOps Option where
  add a b := if a.toNat + b.toNat < 2 ^ 32 then some (a + b) else none
  sub a b := if b.toNat ≤ a.toNat then some (a - b) else none
  mul a b := if a.toNat * b.toNat < 2 ^ 32 then some (a * b) else none

structure RtcDatetime where
  year : UInt16
  month : UInt8
  day : UInt8
  hour : UInt8
  minute : UInt8
  second : UInt8
deriving DecidableEq

/-- The years begin with March, so a leap day is the last of its year. The correction of the month
is meant to wrap. -/
def rtcTimeToDatetimeWith {m : Type → Type} [Monad m] (ops : WordOps m) (unixTime : UInt32) :
    m RtcDatetime := do
  let days := unixTime / 86400
  let secs := unixTime % 86400
  let hour := secs / 3600
  let minute := (secs % 3600) / 60
  let second := secs % 60
  let z ← ops.add days 719468
  let era := z / 146097
  let eraDays ← ops.mul era 146097
  let doe ← ops.sub z eraDays
  let without4 ← ops.sub doe (doe / 1460)
  let with100 ← ops.add without4 (doe / 36524)
  let without400 ← ops.sub with100 (doe / 146096)
  let yoe := without400 / 365
  let eraYears ← ops.mul era 400
  let y ← ops.add yoe eraYears
  let yearDays ← ops.mul 365 yoe
  let leapDays ← ops.add yearDays (yoe / 4)
  let yearStart ← ops.sub leapDays (yoe / 100)
  let doy ← ops.sub doe yearStart
  let doy5 ← ops.mul 5 doy
  let doy5 ← ops.add doy5 2
  let mp := doy5 / 153
  let mp153 ← ops.mul 153 mp
  let mp153 ← ops.add mp153 2
  let d ← ops.sub doy (mp153 / 5)
  let d ← ops.add d 1
  let month := mp + (if mp < 10 then 3 else -9)
  let year ← ops.add y (if month ≤ 2 then 1 else 0)
  pure { year := year.toUInt16, month := month.toUInt8, day := d.toUInt8, hour := hour.toUInt8,
         minute := minute.toUInt8, second := second.toUInt8 }

def rtcTimeToDatetime (unixTime : UInt32) : RtcDatetime := rtcTimeToDatetimeWith wrapping unixTime

example : rtcTimeToDatetime 1767225600 = ⟨2026, 1, 1, 0, 0, 0⟩ := by decide +kernel

/-! ## The year and the month -/

/-- Whether the year that begins with March `yoe` years into an era has a leap day at its end. -/
def LongYear (yoe : ℕ) : Prop := (yoe + 1) % 4 = 0 ∧ ((yoe + 1) % 100 ≠ 0 ∨ yoe = 399)

/-- The day of an era as a year and a day of this year. -/
theorem exists_year {doe : ℕ} (h : doe < 146097) : ∃ yoe doy, yoe < 400 ∧
    (doy < 365 ∨ doy = 365 ∧ LongYear yoe) ∧ doe + yoe / 100 = 365 * yoe + yoe / 4 + doy := by
  induction doe with
  | zero => exact ⟨0, 0, by decide, .inl (by decide), rfl⟩
  | succ doe ih =>
    obtain ⟨yoe, doy, hyoe, hdoy, hdays⟩ := ih (by omega)
    clear ih
    have h4 : (yoe + 1) % 4 = 0 ∧ (yoe + 1) / 4 = yoe / 4 + 1 ∨
        (yoe + 1) % 4 ≠ 0 ∧ (yoe + 1) / 4 = yoe / 4 := by omega
    have h100 : (yoe + 1) % 100 = 0 ∧ (yoe + 1) / 100 = yoe / 100 + 1 ∨
        (yoe + 1) % 100 ≠ 0 ∧ (yoe + 1) / 100 = yoe / 100 := by omega
    by_cases hlast : doy + 1 < 365 ∨ doy + 1 = 365 ∧ LongYear yoe
    · exact ⟨yoe, doy + 1, hyoe, hlast, by omega⟩
    · unfold LongYear at hlast hdoy
      have hyoe' : yoe + 1 < 400 := by omega
      have hdays' : doe + 1 + (yoe + 1) / 100 = 365 * (yoe + 1) + (yoe + 1) / 4 + 0 := by omega
      exact ⟨yoe + 1, 0, hyoe', .inl (by decide), hdays'⟩

/-- The leap days counted in the quotients are no fewer than those of the years before. -/
theorem year_low {doe yoe doy : ℕ} (hyoe : yoe < 400) (hdoy : doy < 366)
    (hdays : doe + yoe / 100 = 365 * yoe + yoe / 4 + doy) :
    365 * yoe + doe / 1460 + doe / 146096 ≤ doe + doe / 36524 := by
  have h4 : doe / 1460 = yoe / 4 ∨ doe / 1460 = yoe / 4 + 1 := by omega
  have h100 : yoe / 100 ≤ doe / 36524 := by omega
  have h400 : doe / 146096 = 0 ∨ doe / 146096 = 1 := by omega
  rcases h4 with h4 | h4 <;> rcases h400 with h400 | h400 <;> omega

theorem year_high {doe yoe doy : ℕ} (hyoe : yoe < 400)
    (hdoy : doy < 365 ∨ doy = 365 ∧ LongYear yoe)
    (hdays : doe + yoe / 100 = 365 * yoe + yoe / 4 + doy) :
    doe + doe / 36524 < 365 * yoe + 365 + doe / 1460 + doe / 146096 := by
  rcases hdoy with hdoy | ⟨rfl, hfour, hcentury | rfl⟩
  · have h4 : yoe / 4 ≤ doe / 1460 := by omega
    have h100 : doe / 36524 = yoe / 100 ∨ doe / 36524 = yoe / 100 + 1 := by omega
    rcases h100 with h100 | h100 <;> omega
  -- the day at the end of a leap year counts in one quotient already
  · have h4 : doe / 1460 = yoe / 4 + 1 := by omega
    have hrest : yoe / 4 ≤ 25 * (yoe / 100) + 23 := by omega
    have h100 : doe / 36524 = yoe / 100 := by omega
    omega
  · omega

/-- The formula finds the year. -/
theorem year_of_era {doe yoe doy : ℕ} (hyoe : yoe < 400)
    (hdoy : doy < 365 ∨ doy = 365 ∧ LongYear yoe)
    (hdays : doe + yoe / 100 = 365 * yoe + yoe / 4 + doy) :
    (doe - doe / 1460 + doe / 36524 - doe / 146096) / 365 = yoe := by
  have hlow := year_low hyoe (by omega) hdays
  have hhigh := year_high hyoe hdoy hdays
  omega

/-- From March to December the months begin along a line. -/
theorem month_line (leap : Bool) : ∀ mp < 10,
    daysBeforeMonth leap (mp + 3) = (153 * mp + 2) / 5 + 59 + leap.toNat ∧
      (153 * mp + 2) / 5 + monthLength leap (mp + 3) = (153 * mp + 155) / 5 := by
  cases leap <;> decide

/-- January and February go on along the line, up to the end of the year. -/
theorem winter_line (leap : Bool) : ∀ mp < 12, 10 ≤ mp →
    daysBeforeMonth leap (mp - 9) + 306 = (153 * mp + 2) / 5 ∧
      (153 * mp + 2) / 5 + monthLength leap (mp - 9) =
        min ((153 * mp + 155) / 5) (365 + leap.toNat) := by
  cases leap <;> decide

/-- The months from March on. -/
theorem month_of_year (leap : Bool) {doy mp : ℕ} (hdoy : doy < 366)
    (hmp : mp = (5 * doy + 2) / 153) :
    let day := doy - (153 * mp + 2) / 5 + 1
    (153 * mp + 2) / 5 ≤ doy ∧ mp < 12 ∧
      (mp < 10 → 1 ≤ day ∧ day ≤ monthLength leap (mp + 3) ∧
        daysBeforeMonth leap (mp + 3) + (day - 1) = doy + 59 + leap.toNat) ∧
      (10 ≤ mp → 1 ≤ day ∧ (doy < 365 ∨ leap = true → day ≤ monthLength leap (mp - 9)) ∧
        daysBeforeMonth leap (mp - 9) + (day - 1) + 306 = doy) := by
  have hmp12 : mp < 12 := by omega
  have hlow : (153 * mp + 2) / 5 ≤ doy := by omega
  have hhigh : doy < (153 * mp + 155) / 5 := by omega
  refine ⟨hlow, hmp12, fun hmonth => ?_, fun hmonth => ?_⟩
  · obtain ⟨hbefore, hlength⟩ := month_line leap mp hmonth
    omega
  · obtain ⟨hbefore, hlength⟩ := winter_line leap mp hmp12 hmonth
    refine ⟨by omega, fun hshort => ?_, by omega⟩
    have hyear : doy < 365 + leap.toNat := by
      rcases hshort with hshort | rfl
      · omega
      · exact hdoy
    omega

/-! ## The program on numbers -/

/-- The operations give the result on numbers where it fits. -/
structure Exact {m : Type → Type} [Monad m] (ops : WordOps m) : Prop where
  add : ∀ a b, a + b < 2 ^ 32 → ops.add (.ofNat a) (.ofNat b) = pure (.ofNat (a + b))
  sub : ∀ a b, b ≤ a → a < 2 ^ 32 → ops.sub (.ofNat a) (.ofNat b) = pure (.ofNat (a - b))
  mul : ∀ a b, a < 2 ^ 32 → b < 2 ^ 32 → a * b < 2 ^ 32 →
    ops.mul (.ofNat a) (.ofNat b) = pure (.ofNat (a * b))

theorem exact_wrapping : Exact wrapping where
  add a b _ := (UInt32.ofNat_add a b).symm
  sub _ _ h _ := (UInt32.ofNat_sub h).symm
  mul a b _ _ _ := (UInt32.ofNat_mul a b).symm

theorem toNat_word {n : ℕ} (h : n < 2 ^ 32) : (UInt32.ofNat n).toNat = n :=
  UInt32.toNat_ofNat_of_lt' h

theorem exact_checked : Exact checked where
  add a b h := by
    have ha := toNat_word (n := a) (by omega)
    have hb := toNat_word (n := b) (by omega)
    simp only [checked]
    rw [ha, hb, if_pos h, ← UInt32.ofNat_add]
    rfl
  sub a b h hlt := by
    have ha := toNat_word hlt
    have hb := toNat_word (n := b) (by omega)
    simp only [checked]
    rw [ha, hb, if_pos h, ← UInt32.ofNat_sub h]
    rfl
  mul a b ha hb h := by
    simp only [checked]
    rw [toNat_word ha, toNat_word hb, if_pos h, ← UInt32.ofNat_mul]
    rfl

/-- The month numbers from March on become those from January on. -/
theorem month_correction {mp : ℕ} (h : mp < 12) :
    UInt32.ofNat mp + (if UInt32.ofNat mp < 10 then 3 else -9) =
      UInt32.ofNat (if mp < 10 then mp + 3 else mp - 9) := by
  have hall : ∀ mp < 12, UInt32.ofNat mp + (if UInt32.ofNat mp < 10 then 3 else -9) =
      UInt32.ofNat (if mp < 10 then mp + 3 else mp - 9) := by decide
  exact hall mp h

/-- January and February are of the next year. -/
theorem year_correction {mp : ℕ} (h : mp < 12) :
    (if UInt32.ofNat (if mp < 10 then mp + 3 else mp - 9) ≤ 2 then 1 else 0) =
      UInt32.ofNat (if mp < 10 then 0 else 1) := by
  have hall : ∀ mp < 12, (if UInt32.ofNat (if mp < 10 then mp + 3 else mp - 9) ≤ 2 then 1 else 0) =
      UInt32.ofNat (if mp < 10 then 0 else 1) := by decide
  exact hall mp h

section
variable {m : Type → Type} [Monad m] [LawfulMonad m] {ops : WordOps m}

theorem conversion_eq (hops : Exact ops) {n era doe yoe doy mp : ℕ} (hn : n < 2 ^ 32)
    (hz : n / 86400 + 719468 = era * 146097 + doe) (hdoe : doe < 146097) (hyoe : yoe < 400)
    (hdoy : doy < 365 ∨ doy = 365 ∧ LongYear yoe)
    (hdays : doe + yoe / 100 = 365 * yoe + yoe / 4 + doy) (hmp : mp = (5 * doy + 2) / 153) :
    rtcTimeToDatetimeWith ops (.ofNat n) = pure
      { year := (UInt32.ofNat (yoe + era * 400 + if mp < 10 then 0 else 1)).toUInt16
        month := (UInt32.ofNat (if mp < 10 then mp + 3 else mp - 9)).toUInt8
        day := (UInt32.ofNat (doy - (153 * mp + 2) / 5 + 1)).toUInt8
        hour := (UInt32.ofNat (n % 86400 / 3600)).toUInt8
        minute := (UInt32.ofNat (n % 86400 % 3600 / 60)).toUInt8
        second := (UInt32.ofNat (n % 86400 % 60)).toUInt8 } := by
  have hdays1 : UInt32.ofNat n / 86400 = .ofNat (n / 86400) :=
    (UInt32.ofNat_div hn (by decide)).symm
  have hsecs : UInt32.ofNat n % 86400 = .ofNat (n % 86400) :=
    (UInt32.ofNat_mod hn (by decide)).symm
  have hhour : UInt32.ofNat (n % 86400) / 3600 = .ofNat (n % 86400 / 3600) :=
    (UInt32.ofNat_div (by omega) (by decide)).symm
  have hrest : UInt32.ofNat (n % 86400) % 3600 = .ofNat (n % 86400 % 3600) :=
    (UInt32.ofNat_mod (by omega) (by decide)).symm
  have hminute : UInt32.ofNat (n % 86400 % 3600) / 60 = .ofNat (n % 86400 % 3600 / 60) :=
    (UInt32.ofNat_div (by omega) (by decide)).symm
  have hsecond : UInt32.ofNat (n % 86400) % 60 = .ofNat (n % 86400 % 60) :=
    (UInt32.ofNat_mod (by omega) (by decide)).symm
  -- the era, and the day and the year of the era
  have hadd : ops.add (.ofNat (n / 86400)) 719468 = pure _ := hops.add _ 719468 (by omega)
  have hera : UInt32.ofNat (n / 86400 + 719468) / 146097 = .ofNat era := by
    rw [show era = (n / 86400 + 719468) / 146097 by omega]
    exact (UInt32.ofNat_div (by omega) (by decide)).symm
  have hmul : ops.mul (.ofNat era) 146097 = pure _ :=
    hops.mul _ 146097 (by omega) (by decide) (by omega)
  have hsub := hops.sub (n / 86400 + 719468) (era * 146097) (by omega) (by omega)
  rw [show n / 86400 + 719468 - era * 146097 = doe by omega] at hsub
  have hdiv4 : UInt32.ofNat doe / 1460 = _ := (UInt32.ofNat_div (by omega) (by decide)).symm
  have hdiv100 : UInt32.ofNat doe / 36524 = _ := (UInt32.ofNat_div (by omega) (by decide)).symm
  have hdiv400 : UInt32.ofNat doe / 146096 = _ := (UInt32.ofNat_div (by omega) (by decide)).symm
  have hsub4 := hops.sub doe (doe / 1460) (by omega) (by omega)
  have hadd100 := hops.add (doe - doe / 1460) (doe / 36524) (by omega)
  have hsub400 := hops.sub (doe - doe / 1460 + doe / 36524) (doe / 146096) (by omega) (by omega)
  have hyoe' : UInt32.ofNat (doe - doe / 1460 + doe / 36524 - doe / 146096) / 365 = .ofNat yoe := by
    rw [← year_of_era hyoe hdoy hdays]
    exact (UInt32.ofNat_div (by omega) (by decide)).symm
  have heraYears : ops.mul (.ofNat era) 400 = pure _ :=
    hops.mul _ 400 (by omega) (by decide) (by omega)
  have hy := hops.add yoe (era * 400) (by omega)
  -- the day of the year
  have hyearDays : ops.mul 365 (.ofNat yoe) = pure _ :=
    hops.mul 365 _ (by decide) (by omega) (by omega)
  have hyoe4 : UInt32.ofNat yoe / 4 = _ := (UInt32.ofNat_div (by omega) (by decide)).symm
  have hyoe100 : UInt32.ofNat yoe / 100 = _ := (UInt32.ofNat_div (by omega) (by decide)).symm
  have hleapDays := hops.add (365 * yoe) (yoe / 4) (by omega)
  have hyearStart := hops.sub (365 * yoe + yoe / 4) (yoe / 100) (by omega) (by omega)
  have hdoy' := hops.sub doe (365 * yoe + yoe / 4 - yoe / 100) (by omega) (by omega)
  rw [show doe - (365 * yoe + yoe / 4 - yoe / 100) = doy by omega] at hdoy'
  -- the month and the day
  have hfive : ops.mul 5 (.ofNat doy) = pure _ := hops.mul 5 _ (by decide) (by omega) (by omega)
  have htwo : ops.add (.ofNat (5 * doy)) 2 = pure _ := hops.add _ 2 (by omega)
  have hmp' : UInt32.ofNat (5 * doy + 2) / 153 = .ofNat mp :=
    hmp ▸ (UInt32.ofNat_div (by omega) (by decide)).symm
  obtain ⟨hstart, hmp12, -⟩ := month_of_year true (by omega) hmp
  have hmp153 : ops.mul 153 (.ofNat mp) = pure _ :=
    hops.mul 153 _ (by decide) (by omega) (by omega)
  have hmp2 : ops.add (.ofNat (153 * mp)) 2 = pure _ := hops.add _ 2 (by omega)
  have hstart' : UInt32.ofNat (153 * mp + 2) / 5 = _ :=
    (UInt32.ofNat_div (by omega) (by decide)).symm
  have hday := hops.sub doy ((153 * mp + 2) / 5) hstart (by omega)
  have hone : ops.add (.ofNat (doy - (153 * mp + 2) / 5)) 1 = pure _ := hops.add _ 1 (by omega)
  have hnext := hops.add (yoe + era * 400) (if mp < 10 then 0 else 1) (by split <;> omega)
  unfold rtcTimeToDatetimeWith
  simp only [hdays1, hsecs, hhour, hrest, hminute, hsecond, hadd, hera, hmul, hsub, hdiv4, hdiv100,
    hdiv400, hsub4, hadd100, hsub400, hyoe', heraYears, hy, hyearDays, hyoe4, hyoe100, hleapDays,
    hyearStart, hdoy', hfive, htwo, hmp', hmp153, hmp2, hstart', hday, hone,
    month_correction hmp12, year_correction hmp12, hnext, pure_bind]

end

/-! ## The calendar -/

/-- The fields are those of the moment. -/
structure Shows (d : RtcDatetime) (m : Moment) : Prop where
  year : d.year.toNat = m.date.year
  month : d.month.toNat = m.date.month
  day : d.day.toNat = m.date.day
  hour : d.hour.toNat = m.hour
  minute : d.minute.toNat = m.minute
  second : d.second.toNat = m.second

theorem daysBeforeYear_era {era yoe : ℕ} (hyoe : yoe < 400) (h : 1970 ≤ yoe + era * 400 + 1) :
    daysBeforeYear (yoe + era * 400 + 1) + 719162 + yoe / 100 =
      era * 146097 + 365 * yoe + yoe / 4 := by
  have hdays := daysBeforeYear_add h
  rw [Nat.add_sub_cancel] at hdays
  have h4 : (yoe + era * 400) / 4 = yoe / 4 + era * 100 := by omega
  have h100 : (yoe + era * 400) / 100 = yoe / 100 + era * 4 := by omega
  have h400 : (yoe + era * 400) / 400 = era := by omega
  rw [h4, h100, h400] at hdays
  omega

theorem longYear_iff {era yoe : ℕ} (hyoe : yoe < 400) :
    LongYear yoe ↔ IsLeap (yoe + era * 400 + 1) := by
  unfold LongYear IsLeap
  omega

/-- The date of a day of the year that begins with March. -/
theorem exists_date (era : ℕ) {yoe doy mp : ℕ} (hyoe : yoe < 400)
    (hdoy : doy < 365 ∨ doy = 365 ∧ LongYear yoe)
    (hepoch : 719468 + yoe / 100 ≤ era * 146097 + 365 * yoe + yoe / 4 + doy)
    (hmp : mp = (5 * doy + 2) / 153) :
    ∃ d : Date, d.year = yoe + era * 400 + (if mp < 10 then 0 else 1) ∧
      d.month = (if mp < 10 then mp + 3 else mp - 9) ∧
      d.day = doy - (153 * mp + 2) / 5 + 1 ∧
      d.days + 719468 + yoe / 100 = era * 146097 + 365 * yoe + yoe / 4 + doy := by
  have hyear : 1970 ≤ yoe + era * 400 + 1 := by omega
  have hera := daysBeforeYear_era hyoe hyear
  by_cases hlate : mp < 10
  · simp only [if_pos hlate]
    have hyear' : 1970 ≤ yoe + era * 400 := by omega
    have hsucc := daysBeforeYear_succ hyear'
    rw [yearLength_eq_sum, daysBeforeMonth_year] at hsucc
    obtain ⟨-, -, hfirst, -⟩ := month_of_year (IsLeap (yoe + era * 400)) (by omega) hmp
    obtain ⟨hday, hlength, hdays⟩ := hfirst hlate
    refine ⟨⟨yoe + era * 400, mp + 3, _, hyear', by omega, hday, hlength⟩, rfl, rfl, rfl, ?_⟩
    simp only [Date.days]
    omega
  · simp only [if_neg hlate]
    obtain ⟨-, hmp12, -, hlast⟩ := month_of_year (IsLeap (yoe + era * 400 + 1)) (by omega) hmp
    obtain ⟨hday, hlength, hdays⟩ := hlast (by omega)
    have hleap : doy < 365 ∨ decide (IsLeap (yoe + era * 400 + 1)) = true := by
      rw [decide_eq_true_iff, ← longYear_iff hyoe]
      exact hdoy.imp_right And.right
    refine ⟨⟨yoe + era * 400 + 1, mp - 9, _, hyear, by omega, hday, hlength hleap⟩, rfl, rfl, rfl,
      ?_⟩
    simp only [Date.days]
    omega

theorem toNat_short {n : ℕ} (h : n < 2 ^ 8) : (UInt32.ofNat n).toUInt8.toNat = n := by
  rw [UInt32.toNat_toUInt8, toNat_word (by omega), Nat.mod_eq_of_lt h]

theorem toNat_half {n : ℕ} (h : n < 2 ^ 16) : (UInt32.ofNat n).toUInt16.toNat = n := by
  rw [UInt32.toNat_toUInt16, toNat_word (by omega), Nat.mod_eq_of_lt h]

/-- Every time of the 32 bits is shown as the moment of the calendar that many seconds after the
first of January 1970, and only the correction of the month wraps. -/
theorem rtcTimeToDatetime_correct (unixTime : UInt32) :
    (∃ moment : Moment, Shows (rtcTimeToDatetime unixTime) moment ∧
      moment.seconds = unixTime.toNat) ∧
    rtcTimeToDatetimeWith checked unixTime = some (rtcTimeToDatetime unixTime) := by
  obtain ⟨n, hn, rfl⟩ : ∃ n < 2 ^ 32, UInt32.ofNat n = unixTime :=
    ⟨unixTime.toNat, unixTime.toNat_lt, UInt32.ofNat_toNat⟩
  rw [toNat_word hn]
  obtain ⟨era, doe, hz, hdoe⟩ : ∃ era doe, n / 86400 + 719468 = era * 146097 + doe ∧
      doe < 146097 :=
    ⟨(n / 86400 + 719468) / 146097, (n / 86400 + 719468) % 146097, by omega, by omega⟩
  obtain ⟨yoe, doy, hyoe, hdoy, hdays⟩ := exists_year hdoe
  obtain ⟨mp, hmp⟩ : ∃ mp, mp = (5 * doy + 2) / 153 := ⟨_, rfl⟩
  obtain ⟨date, hyear, hmonth, hday, hdate⟩ := exists_date era hyoe hdoy (by omega) hmp
  have hwraps := conversion_eq exact_wrapping hn hz hdoe hyoe hdoy hdays hmp
  have hchecks := conversion_eq exact_checked hn hz hdoe hyoe hdoy hdays hmp
  refine ⟨⟨⟨date, n % 86400 / 3600, n % 86400 % 3600 / 60, n % 86400 % 60, by omega, by omega,
    by omega⟩, ?_, ?_⟩, hchecks.trans (congrArg some hwraps.symm)⟩
  · have hshown : rtcTimeToDatetime (.ofNat n) = _ := hwraps
    rw [hshown]
    exact {
      year := (toNat_half (by split <;> omega)).trans hyear.symm
      month := (toNat_short (by split <;> omega)).trans hmonth.symm
      day := (toNat_short (by omega)).trans hday.symm
      hour := toNat_short (by omega)
      minute := toNat_short (by omega)
      second := toNat_short (by omega) }
  · simp only [Moment.seconds]
    omega

end BekenCam.SoftRtc
