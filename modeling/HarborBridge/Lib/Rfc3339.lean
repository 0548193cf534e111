import Mathlib.Data.Nat.Find
import HarborBridge.Lib.GoStrings

/-! Instants as nanoseconds since the Unix epoch, and how the Go package time writes
and reads them in the layout RFC3339. -/
namespace Rfc3339

open GoStrings

def second : Int := 1000000000

def minute : Int := 60 * second

def hour : Int := 60 * minute

/-- Time.Sub: the difference as a 64-bit duration, saturated. -/
def timeSub (t u : Int) : Int := max (-2 ^ 63) (min (2 ^ 63 - 1) (t - u))

theorem lt_timeSub {t u d : Int} (hlow : -2 ^ 63 ≤ d) (hhigh : d < 2 ^ 63 - 1) :
    d < timeSub t u ↔ d < t - u := by
  unfold timeSub
  omega

/-! ## The calendar -/

/-- Days from the start of year 0 to the start of year `y`. -/
def daysBeforeYear (y : Nat) : Nat := 365 * y + (y + 3) / 4 - (y + 99) / 100 + (y + 399) / 400

def isLeap (y : Nat) : Bool := y % 4 == 0 && (y % 100 != 0 || y % 400 == 0)

def daysIn (y m : Nat) : Nat :=
  if m = 2 then (if isLeap y then 29 else 28) else if m = 4 ∨ m = 6 ∨ m = 9 ∨ m = 11 then 30 else 31

/-- Days from the start of the year to the start of month `m`, which counts from 1. -/
def daysBeforeMonth (y : Nat) : (m : Nat) → Nat
  | 0 => 0
  | 1 => 0
  | m + 2 => daysBeforeMonth y (m + 1) + daysIn y (m + 1)

structure Civil where
  year : Int
  month : Nat
  day : Nat
  hour : Nat
  minute : Nat
  second : Nat
  deriving DecidableEq

/-- Days from the start of year 0 to the Unix epoch. -/
def epochDays : Int := 719528

/-- The calendar repeats after 400 years, which are 146097 days. -/
def civil (unix : Int) : Civil :=
  let days := unix / 86400 + epochDays
  let inEra := (days % 146097).toNat
  let year := Nat.findGreatest (fun y => daysBeforeYear y ≤ inEra) 399
  let inYear := inEra - daysBeforeYear year
  let month := Nat.findGreatest (fun m => daysBeforeMonth year m ≤ inYear) 12
  let inDay := (unix % 86400).toNat
  ⟨400 * (days / 146097) + year, month, inYear - daysBeforeMonth year month + 1,
    inDay / 3600, inDay / 60 % 60, inDay % 60⟩

def unixOf (y mo d h mi s : Nat) : Int :=
  ((daysBeforeYear y + daysBeforeMonth y mo + (d - 1) : Nat) - epochDays) * 86400 +
    (h * 3600 + mi * 60 + s : Nat)

theorem daysBeforeYear_era (e y : Nat) :
    daysBeforeYear (400 * e + y) = 146097 * e + daysBeforeYear y := by
  unfold daysBeforeYear
  omega

theorem isLeap_era (e y : Nat) : isLeap (400 * e + y) = isLeap y := by
  have h4 : (400 * e + y) % 4 = y % 4 := by omega
  have h100 : (400 * e + y) % 100 = y % 100 := by omega
  have h400 : (400 * e + y) % 400 = y % 400 := by omega
  simp only [isLeap, h4, h100, h400]

theorem daysIn_era (e y m : Nat) : daysIn (400 * e + y) m = daysIn y m := by
  simp only [daysIn, isLeap_era]

theorem daysBeforeMonth_era (e y m : Nat) :
    daysBeforeMonth (400 * e + y) m = daysBeforeMonth y m := by
  induction m using daysBeforeMonth.induct with
  | case1 => rfl
  | case2 => rfl
  | case3 m ih => simp only [daysBeforeMonth, ih, daysIn_era]

theorem daysBeforeYear_succ (y : Nat) :
    daysBeforeYear (y + 1) = daysBeforeYear y + daysBeforeMonth y 13 := by
  have hmonths : daysBeforeMonth y 13 = 365 + if isLeap y then 1 else 0 := by
    cases h : isLeap y <;> simp [daysBeforeMonth, daysIn, h]
  have h4 : (y + 1 + 3) / 4 = (y + 3) / 4 + if y % 4 = 0 then 1 else 0 := by split_ifs <;> omega
  have h100 : (y + 1 + 99) / 100 = (y + 99) / 100 + if y % 100 = 0 then 1 else 0 := by
    split_ifs <;> omega
  have h400 : (y + 1 + 399) / 400 = (y + 399) / 400 + if y % 400 = 0 then 1 else 0 := by
    split_ifs <;> omega
  have hle : (y + 99) / 100 ≤ 365 * y + (y + 3) / 4 := by omega
  have hleap : (if isLeap y then 1 else 0) + (if y % 100 = 0 then 1 else 0) =
      (if y % 4 = 0 then 1 else 0) + (if y % 400 = 0 then 1 else 0) := by
    simp only [isLeap, Bool.and_eq_true, Bool.or_eq_true, beq_iff_eq, bne_iff_ne]
    split_ifs <;> omega
  rw [hmonths]
  unfold daysBeforeYear
  rw [h4, h100, h400]
  omega

/-- A day of the era falls into the year that the search finds. -/
theorem findGreatest_year (n : Nat) (hn : n < 146097) :
    let y := Nat.findGreatest (fun y => daysBeforeYear y ≤ n) 399
    y ≤ 399 ∧ daysBeforeYear y ≤ n ∧ n - daysBeforeYear y < daysBeforeMonth y 13 := by
  intro y
  have hle : y ≤ 399 := Nat.findGreatest_le 399
  have hspec : daysBeforeYear y ≤ n :=
    Nat.findGreatest_spec (P := fun y => daysBeforeYear y ≤ n) (Nat.zero_le 399) (Nat.zero_le n)
  have hnext : n < daysBeforeYear (y + 1) := by
    by_cases hy : y = 399
    · rw [hy]
      exact hn
    · exact not_le.mp (Nat.findGreatest_is_greatest (P := fun y => daysBeforeYear y ≤ n)
        (Nat.lt_succ_self y) (by omega))
  rw [daysBeforeYear_succ] at hnext
  exact ⟨hle, hspec, by omega⟩

/-- A day of the year falls into the month that the search finds. -/
theorem findGreatest_month (y n : Nat) (hn : n < daysBeforeMonth y 13) :
    let m := Nat.findGreatest (fun m => daysBeforeMonth y m ≤ n) 12
    1 ≤ m ∧ m ≤ 12 ∧ daysBeforeMonth y m ≤ n ∧ n - daysBeforeMonth y m + 1 ≤ daysIn y m := by
  intro m
  have hpos : 1 ≤ m :=
    Nat.le_findGreatest (P := fun m => daysBeforeMonth y m ≤ n) (by norm_num) (Nat.zero_le n)
  have hle : m ≤ 12 := Nat.findGreatest_le 12
  have hspec : daysBeforeMonth y m ≤ n :=
    Nat.findGreatest_spec (P := fun m => daysBeforeMonth y m ≤ n) (Nat.zero_le 12) (Nat.zero_le n)
  have hnext : n < daysBeforeMonth y (m + 1) := by
    by_cases hm : m = 12
    · rw [hm]
      exact hn
    · exact not_le.mp (Nat.findGreatest_is_greatest (P := fun m => daysBeforeMonth y m ≤ n)
        (Nat.lt_succ_self m) (by omega))
  obtain ⟨k, hk⟩ : ∃ k, m = k + 1 := ⟨m - 1, by omega⟩
  have hsucc : daysBeforeMonth y (m + 1) = daysBeforeMonth y m + daysIn y m := by
    rw [hk]
    rfl
  exact ⟨hpos, hle, hspec, by omega⟩

/-- The seconds whose year has at most four digits. -/
def InYears (unix : Int) : Prop := -62167219200 ≤ unix ∧ unix < 253402300800

instance (unix : Int) : Decidable (InYears unix) := inferInstanceAs (Decidable (_ ∧ _))

/-- The date and the time of day of a second name it. -/
theorem civil_spec (unix : Int) (h : InYears unix) :
    ∃ y mo d hr mi s : Nat, civil unix = ⟨y, mo, d, hr, mi, s⟩ ∧ y < 10000 ∧
      (1 ≤ mo ∧ mo ≤ 12) ∧ (1 ≤ d ∧ d ≤ daysIn y mo) ∧ hr < 24 ∧ mi < 60 ∧ s < 60 ∧
      unixOf y mo d hr mi s = unix := by
  obtain ⟨days, hdays⟩ : ∃ days : Nat, unix / 86400 + epochDays = days := by
    refine ⟨(unix / 86400 + epochDays).toNat, ?_⟩
    have := h.1
    unfold epochDays
    omega
  have hbound : days < 3652425 := by
    have := h.2
    unfold epochDays at hdays
    omega
  obtain ⟨secs, hsecs⟩ : ∃ secs : Nat, unix % 86400 = secs := ⟨(unix % 86400).toNat, by omega⟩
  have hsplit : unix = ((days : Int) - epochDays) * 86400 + secs := by omega
  have hera : ((days : Int) % 146097).toNat = days % 146097 := by omega
  have hdiv : (days : Int) / 146097 = ((days / 146097 : Nat) : Int) := by omega
  have hy := findGreatest_year (days % 146097) (Nat.mod_lt _ (by norm_num))
  obtain ⟨y, hyear⟩ : ∃ y, y = Nat.findGreatest (daysBeforeYear · ≤ days % 146097) 399 :=
    ⟨_, rfl⟩
  rw [← hyear] at hy
  have hm := findGreatest_month y _ hy.2.2
  obtain ⟨mo, hmonth⟩ : ∃ mo, mo = Nat.findGreatest
      (daysBeforeMonth y · ≤ days % 146097 - daysBeforeYear y) 12 := ⟨_, rfl⟩
  rw [← hmonth] at hm
  obtain ⟨hpos, hle, hbefore, hin⟩ := hm
  refine ⟨400 * (days / 146097) + y, mo,
    days % 146097 - daysBeforeYear y - daysBeforeMonth y mo + 1,
    secs / 3600, secs / 60 % 60, secs % 60, ?_, ?_, ⟨hpos, hle⟩, ⟨by omega, ?_⟩, ?_, ?_, ?_, ?_⟩
  · simp only [civil, hdays, hera, hdiv, hsecs, Int.toNat_natCast, ← hyear, ← hmonth]
    push_cast
    rfl
  · omega
  · rw [daysIn_era]
    exact hin
  · omega
  · omega
  · omega
  · rw [unixOf, daysBeforeYear_era, daysBeforeMonth_era, hsplit]
    have hdate : 146097 * (days / 146097) + daysBeforeYear y + daysBeforeMonth y mo +
        (days % 146097 - daysBeforeYear y - daysBeforeMonth y mo + 1 - 1) = days := by omega
    have htime : secs / 3600 * 3600 + secs / 60 % 60 * 60 + secs % 60 = secs := by omega
    rw [hdate, htime]

/-! ## Writing -/

def padded : (width n : Nat) → GoString
  | 0, _ => []
  | width + 1, n => padded width (n / 10) ++ [(48 + n % 10).toUInt8]

/-- How the package time writes a number in at least `width` digits. -/
def appendInt (x : Int) (width : Nat) : GoString :=
  (if x < 0 then [45] else []) ++
    if x.natAbs < 10 ^ width then padded width x.natAbs else formatNat x.natAbs

/-- Time.Format of a UTC time in the layout RFC3339. -/
def format (t : Int) : GoString :=
  let c := civil (t / second)
  appendInt c.year 4 ++ 45 :: appendInt c.month 2 ++ 45 :: appendInt c.day 2 ++
    84 :: appendInt c.hour 2 ++ 58 :: appendInt c.minute 2 ++ 58 :: appendInt c.second 2 ++ [90]

/-! ## Reading -/

def expect (b : UInt8) (s : GoString) : Option GoString :=
  if s.head? = some b then some s.tail else none

def takeNum (width : Nat) (s : GoString) : Option (Nat × GoString) :=
  if (s.take width).length = width ∧ (s.take width).all isDigit then
    some (digitsValue (s.take width), s.drop width)
  else none

def getnum (s : GoString) : Option (Nat × GoString) := (takeNum 2 s).orElse fun _ => takeNum 1 s

/-- Fractional seconds are read although the layout has none, down to nanoseconds. -/
def takeNanoseconds (s : GoString) : Nat × GoString :=
  let digits := s.tail.takeWhile isDigit
  if (s.head? = some 46 ∨ s.head? = some 44) ∧ digits ≠ [] then
    (digitsValue (digits.take 9) * 10 ^ (9 - (digits.take 9).length), s.drop (1 + digits.length))
  else (0, s)

/-- The seconds that local time is ahead of UTC. -/
def takeZone (s : GoString) : Option (Int × GoString) :=
  if s.head? = some 90 then some (0, s.tail)
  else do
    let (hr, rest) ← takeNum 2 s.tail
    let rest ← expect 58 rest
    let (mm, rest) ← takeNum 2 rest
    let offset : Int := (hr * 60 + mm) * 60
    if 24 < hr ∨ 60 < mm then none
    else if s.head? = some 43 then some (offset, rest)
    else if s.head? = some 45 then some (-offset, rest)
    else none

/-- time.Parse in the layout RFC3339 -/
def parse (s : GoString) : Option Int := do
  let (y, s) ← takeNum 4 s
  let s ← expect 45 s
  let (mo, s) ← takeNum 2 s
  let s ← expect 45 s
  let (d, s) ← takeNum 2 s
  let s ← expect 84 s
  let (h, s) ← getnum s
  let s ← expect 58 s
  let (mi, s) ← takeNum 2 s
  let s ← expect 58 s
  let (sec, s) ← takeNum 2 s
  let (nanos, s) := takeNanoseconds s
  let (offset, s) ← takeZone s
  if s = [] ∧ (1 ≤ mo ∧ mo ≤ 12) ∧ (1 ≤ d ∧ d ≤ daysIn y mo) ∧ h < 24 ∧ mi < 60 ∧ sec < 60 then
    some ((unixOf y mo d h mi sec - offset) * second + nanos)
  else none

theorem padded_length (width n : Nat) : (padded width n).length = width := by
  induction width generalizing n with
  | zero => rfl
  | succ width ih => simp [padded, ih]

theorem padded_isDigit (width n : Nat) : (padded width n).all isDigit = true := by
  induction width generalizing n with
  | zero => rfl
  | succ width ih =>
    have hd := isDigit_digit (n % 10) (Nat.mod_lt n (by norm_num))
    simp only [padded, List.all_append, ih, List.all_cons, List.all_nil, hd, Bool.and_true]

theorem digitsValue_padded (width n : Nat) (hn : n < 10 ^ width) :
    digitsValue (padded width n) = n := by
  induction width generalizing n with
  | zero =>
    have : n = 0 := by simpa using hn
    rw [this]
    rfl
  | succ width ih =>
    have hdiv : n / 10 < 10 ^ width := by
      rw [pow_succ] at hn
      omega
    have hmod : n % 10 < 10 := Nat.mod_lt n (by norm_num)
    have hstep : digitsValue (padded width (n / 10) ++ [(48 + n % 10).toUInt8]) =
        10 * digitsValue (padded width (n / 10)) + ((48 + n % 10).toUInt8.toNat - 48) := by
      simp [digitsValue]
    rw [padded, hstep, ih (n / 10) hdiv, toNat_digit _ hmod]
    omega

theorem takeNum_appendInt (width n : Nat) (hn : n < 10 ^ width) (rest : GoString) :
    takeNum width (appendInt n width ++ rest) = some (n, rest) := by
  have happend : appendInt n width = padded width n := by simp [appendInt, hn]
  have htake : (padded width n ++ rest).take width = padded width n :=
    List.take_left' (padded_length width n)
  have hdrop : (padded width n ++ rest).drop width = rest :=
    List.drop_left' (padded_length width n)
  rw [happend, takeNum, htake, hdrop, if_pos ⟨padded_length width n, padded_isDigit width n⟩,
    digitsValue_padded width n hn]

@[simp] theorem expect_cons (b : UInt8) (s : GoString) : expect b (b :: s) = some s := by
  simp [expect]

theorem some_bind {α β : Type} (a : α) (f : α → Option β) : (some a >>= f) = f a := rfl

theorem getnum_appendInt (n : Nat) (hn : n < 10 ^ 2) (rest : GoString) :
    getnum (appendInt n 2 ++ rest) = some (n, rest) := by
  rw [getnum, takeNum_appendInt 2 n hn]
  rfl

theorem daysIn_le (y m : Nat) : daysIn y m ≤ 31 := by
  unfold daysIn
  split_ifs <;> omega

/-- Reading the fields of a valid date and time in their order. -/
theorem parse_fields (y mo d hr mi s : Nat) (hy : y < 10000)
    (hmo : 1 ≤ mo ∧ mo ≤ 12) (hd : 1 ≤ d ∧ d ≤ daysIn y mo) (hhr : hr < 24) (hmi : mi < 60)
    (hs : s < 60) :
    parse (appendInt y 4 ++ 45 :: (appendInt mo 2 ++ 45 :: (appendInt d 2 ++
      84 :: (appendInt hr 2 ++ 58 :: (appendInt mi 2 ++ 58 :: (appendInt s 2 ++ [90])))))) =
      some (unixOf y mo d hr mi s * second) := by
  have hday := daysIn_le y mo
  have hnanos : takeNanoseconds [90] = (0, [90]) := by decide
  have hzone : takeZone [90] = some (0, []) := by decide
  unfold parse
  rw [takeNum_appendInt 4 y hy, some_bind]
  dsimp only
  rw [expect_cons, some_bind, takeNum_appendInt 2 mo (by omega), some_bind]
  dsimp only
  rw [expect_cons, some_bind, takeNum_appendInt 2 d (by omega), some_bind]
  dsimp only
  rw [expect_cons, some_bind, getnum_appendInt hr (by omega), some_bind]
  dsimp only
  rw [expect_cons, some_bind, takeNum_appendInt 2 mi (by omega), some_bind]
  dsimp only
  rw [expect_cons, some_bind, takeNum_appendInt 2 s (by omega), some_bind]
  dsimp only
  rw [hnanos]
  dsimp only
  rw [hzone, some_bind]
  dsimp only
  rw [if_pos ⟨rfl, hmo, hd, hhr, hmi, hs⟩]
  simp

/-- Reading back a written instant of whole seconds gives the instant. -/
theorem parse_format (unix : Int) (h : InYears unix) :
    parse (format (unix * second)) = some (unix * second) := by
  obtain ⟨y, mo, d, hr, mi, s, hcivil, hy, hmo, hd, hhr, hmi, hs, hunix⟩ := civil_spec unix h
  have hdiv : unix * second / second = unix := Int.mul_ediv_cancel unix (by decide)
  have hfields := parse_fields y mo d hr mi s hy hmo hd hhr hmi hs
  rw [hunix] at hfields
  simpa only [format, hdiv, hcivil, List.append_assoc, List.cons_append] using hfields

example : format (951782400 * second) = lit "2000-02-29T00:00:00Z" := by decide +kernel

example : parse (lit "2000-02-29T1:00:00,5+01:00") = some (951782400 * second + 500000000) := by
  decide

/-! ## Years that have more digits, or a sign -/

theorem year_of_not_inYears {unix : Int} (h : ¬ InYears unix) :
    (civil unix).year < 0 ∨ 10000 ≤ (civil unix).year := by
  obtain ⟨y, hle, hyear⟩ : ∃ y : Nat, y ≤ 399 ∧
      (civil unix).year = 400 * ((unix / 86400 + epochDays) / 146097) + y :=
    ⟨_, Nat.findGreatest_le 399, rfl⟩
  unfold InYears at h
  rw [hyear]
  unfold epochDays
  omega

/-- A number that does not begin with four digits, or that has a fifth one, is no year. -/
theorem parse_eq_none_of_year (s rest : GoString)
    (h : s.head? = some 45 ∨ 4 < s.length ∧ s.all isDigit = true) : parse (s ++ rest) = none := by
  unfold parse
  rcases h with hsign | ⟨hlength, hdigits⟩
  · obtain ⟨s, rfl⟩ := List.head?_eq_some_iff.mp hsign
    have hnum : takeNum 4 (45 :: s ++ rest) = none := if_neg fun h => by
      simp [isDigit] at h
    rw [hnum]
    rfl
  · rcases s with _ | ⟨a, _ | ⟨b, _ | ⟨c, _ | ⟨d, _ | ⟨e, s⟩⟩⟩⟩⟩
    case cons.cons.cons.cons.cons =>
      have he : isDigit e = true := by
        simp only [List.all_cons, Bool.and_eq_true] at hdigits
        exact hdigits.2.2.2.2.1
      have hexpect : expect 45 (e :: s ++ rest) = none := if_neg fun h => by
        simp only [List.cons_append, List.head?_cons, Option.some.injEq] at h
        rw [h] at he
        exact absurd he (by decide)
      cases hnum : takeNum 4 (a :: b :: c :: d :: e :: s ++ rest) with
      | none => rfl
      | some out =>
        obtain ⟨y, s'⟩ := out
        unfold takeNum at hnum
        split_ifs at hnum
        have hs' : s' = e :: s ++ rest := (Prod.mk.inj (Option.some.inj hnum)).2.symm
        rw [some_bind, hs']
        dsimp only
        rw [hexpect]
        rfl
    all_goals simp at hlength

/-- What is rendered outside of the years 0 to 9999 cannot be read again. -/
theorem parse_format_eq_none {t : Int} (h : ¬ InYears (t / second)) : parse (format t) = none := by
  have hyear := year_of_not_inYears h
  unfold format
  dsimp only
  simp only [List.append_assoc, List.cons_append]
  refine parse_eq_none_of_year _ _ ?_
  unfold appendInt
  rcases hyear with hneg | hlarge
  · exact .inl (by simp [hneg])
  · right
    have hnat : ¬ (civil (t / second)).year.natAbs < 10 ^ 4 := by omega
    rw [if_neg (by omega), if_neg hnat, List.nil_append]
    refine ⟨?_, formatNat_isDigit _⟩
    have hdigits : 4 < (Nat.digits 10 (civil (t / second)).year.natAbs).length :=
      (Nat.lt_digits_length_iff (by norm_num) _).mpr (by omega)
    unfold formatNat
    rw [if_neg (by omega), List.length_reverse, List.length_map]
    exact hdigits

end Rfc3339
