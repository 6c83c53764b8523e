import Mathlib
import Tomo.Lib.Calendar

namespace Tomo
set_option autoImplicit true

/-- The era of 400 years of a day, counted from the first of March of year 0. -/
def eraOf (z : Int) : Int := (if 0 ≤ z then z else z - 146096).tdiv 146097

def yearOfEra (doe : Int) : Int :=
  (doe - doe.tdiv 1460 + doe.tdiv 36524 - doe.tdiv 146096).tdiv 365

/-- The date of a day of a March-based year. -/
def marchDate (y doy : Int) : CivilDate :=
  let mp := (5 * doy + 2).tdiv 153
  let d := (doy - (153 * mp + 2).tdiv 5 + 1).toNat
  let m := if mp < 10 then mp + 3 else mp - 9
  ⟨y + (if m ≤ 2 then 1 else 0), m.toNat, d⟩

def civilFromDays (z : Int) : CivilDate :=
  let z := z + 719468
  let era := eraOf z
  let doe := z - era * 146097
  let yoe := yearOfEra doe
  let y := yoe + era * 400
  let doy := doe - (365 * yoe + yoe.tdiv 4 - yoe.tdiv 100)
  marchDate y doy

theorem eraOf_eq (z : Int) : eraOf z = z / 146097 := by
  unfold eraOf
  split
  next h => exact Int.tdiv_eq_ediv_of_nonneg h
  next h =>
    rw [show z - 146096 = -(146096 - z) by omega, Int.neg_tdiv,
      Int.tdiv_eq_ediv_of_nonneg (by omega)]
    omega

/-- A day of an era, by centuries, fours of years, years and days. -/
structure EraDay (n c b a t : Int) : Prop where
  century : 0 ≤ c ∧ c ≤ 3
  four : 0 ≤ b ∧ b ≤ 24
  year : 0 ≤ a ∧ a ≤ 3
  day : 0 ≤ t ∧ t ≤ 365
  leap : t = 365 → a = 3 ∧ (b = 24 → c = 3)
  total : n = 36524 * c + 1461 * b + 365 * a + t
  centuries : n / 36524 - n / 146096 = c

theorem exists_century {n : Int} (h0 : 0 ≤ n) (hn : n ≤ 146096) :
    ∃ c r, (0 ≤ c ∧ c ≤ 3) ∧ 0 ≤ r ∧ r ≤ 36524 ∧ (r = 36524 → c = 3) ∧ n = 36524 * c + r ∧
      n / 36524 - n / 146096 = c := by
  by_cases h : n = 146096
  · exact ⟨3, 36524, by omega⟩
  · exact ⟨n / 36524, n % 36524, by omega⟩

theorem exists_four {r : Int} (h0 : 0 ≤ r) (hr : r ≤ 36524) :
    ∃ b s, (0 ≤ b ∧ b ≤ 24) ∧ 0 ≤ s ∧ s ≤ 1460 ∧ r = 1461 * b + s :=
  ⟨r / 1461, r % 1461, by omega⟩

theorem exists_year {s : Int} (h0 : 0 ≤ s) (hs : s ≤ 1460) :
    ∃ a t, (0 ≤ a ∧ a ≤ 3) ∧ (0 ≤ t ∧ t ≤ 365) ∧ (t = 365 → a = 3) ∧ s = 365 * a + t := by
  by_cases h : s = 1460
  · exact ⟨3, 365, by omega⟩
  · exact ⟨s / 365, s % 365, by omega⟩

theorem exists_eraDay {n : Int} (h0 : 0 ≤ n) (hn : n ≤ 146096) : ∃ c b a t, EraDay n c b a t := by
  obtain ⟨c, r, hc, hr0, hr, hr3, hnc, hcent⟩ := exists_century h0 hn
  obtain ⟨b, s, hb, hs0, hs, hrb⟩ := exists_four hr0 hr
  obtain ⟨a, t, ha, ht, hta, hsa⟩ := exists_year hs0 hs
  refine ⟨c, b, a, t, hc, hb, ha, ht, ?_, ?_, hcent⟩
  · intro h
    have h3 := hta h
    refine ⟨h3, fun h24 => hr3 ?_⟩
    rw [hrb, hsa, h, h3, h24]
    rfl
  · rw [hnc, hrb, hsa]
    omega

/-- Each four of years counts one day more than 1460; in the last days that makes one too many. -/
theorem fours_le {c b a t : Int} (hc : 0 ≤ c ∧ c ≤ 3) (hb : 0 ≤ b ∧ b ≤ 24) (ha : 0 ≤ a ∧ a ≤ 3)
    (ht : 0 ≤ t ∧ t ≤ 365) (hta : t = 365 → a = 3) :
    0 ≤ t - (24 * c + b + (365 * a + t)) / 1460 ∧
      t - (24 * c + b + (365 * a + t)) / 1460 ≤ 364 := by
  by_cases h : t = 365
  · have h3 := hta h
    omega
  · by_cases h0 : t = 0
    · omega
    · omega

theorem EraDay.yearOfEra {n c b a t : Int} (h : EraDay n c b a t) :
    yearOfEra n = 100 * c + 4 * b + a := by
  have hfours : n / 1460 = 25 * c + b + (24 * c + b + (365 * a + t)) / 1460 := by
    rw [h.total, show 36524 * c + 1461 * b + 365 * a + t =
      24 * c + b + (365 * a + t) + (25 * c + b) * 1460 by omega,
      Int.add_mul_ediv_right _ _ (by decide)]
    omega
  have hq := fours_le h.century h.four h.year h.day fun ht => (h.leap ht).1
  obtain ⟨q, hqe⟩ : ∃ q, (24 * c + b + (365 * a + t)) / 1460 = q := ⟨_, rfl⟩
  rw [hqe] at hfours hq
  have hcent := h.centuries
  have htotal := h.total
  have hnum : n - n / 1460 + n / 36524 - n / 146096 = t - q + (100 * c + 4 * b + a) * 365 := by
    rw [hfours]
    omega
  have hn : 0 ≤ n := by
    have hc := h.century
    have hb := h.four
    have ha := h.year
    have ht := h.day
    omega
  unfold Tomo.yearOfEra
  rw [Int.tdiv_eq_ediv_of_nonneg hn, Int.tdiv_eq_ediv_of_nonneg hn,
    Int.tdiv_eq_ediv_of_nonneg hn, hnum]
  have hyear : 0 ≤ 100 * c + 4 * b + a := by
    have hc := h.century
    have hb := h.four
    have ha := h.year
    omega
  rw [Int.tdiv_eq_ediv_of_nonneg (by omega), Int.add_mul_ediv_right _ _ (by decide),
    Int.ediv_eq_zero_of_lt hq.1 (by omega), Int.zero_add]

/-- Where a day lies in its March-based year. -/
theorem civilFromDays_march (z : Int) :
    ∃ y t, civilFromDays z = marchDate y t ∧ marchStart y + t = z + 719468 ∧ 0 ≤ t ∧
      t < 365 + leapDays (y + 1) := by
  obtain ⟨era, hera⟩ : ∃ era, eraOf (z + 719468) = era := ⟨_, rfl⟩
  obtain ⟨n, hn⟩ : ∃ n, z + 719468 - era * 146097 = n := ⟨_, rfl⟩
  have hbounds : 0 ≤ n ∧ n ≤ 146096 := by
    rw [eraOf_eq] at hera
    omega
  obtain ⟨c, b, a, t, h⟩ := exists_eraDay hbounds.1 hbounds.2
  have hyear := h.yearOfEra
  have hc := h.century
  have hb := h.four
  have ha := h.year
  have ht := h.day
  have htotal := h.total
  have hfour : (100 * c + 4 * b + a) / 4 = 25 * c + b := by omega
  have hcent : (100 * c + 4 * b + a) / 100 = c := by omega
  have hpos : 0 ≤ 100 * c + 4 * b + a := by omega
  refine ⟨100 * c + 4 * b + a + era * 400, t, ?_, ?_, ht.1, ?_⟩
  · unfold civilFromDays
    dsimp only
    rw [hera, hn, hyear, Int.tdiv_eq_ediv_of_nonneg hpos, Int.tdiv_eq_ediv_of_nonneg hpos, hfour,
      hcent, show n - (365 * (100 * c + 4 * b + a) + (25 * c + b) - c) = t by omega]
  · have hstart : marchStart (100 * c + 4 * b + a + era * 400) =
        36524 * c + 1461 * b + 365 * a + era * 146097 := by
      unfold marchStart
      rw [show (100 * c + 4 * b + a + era * 400) / 4 = 25 * c + b + era * 100 by omega,
        show (100 * c + 4 * b + a + era * 400) / 100 = c + era * 4 by omega,
        show (100 * c + 4 * b + a + era * 400) / 400 = era by omega]
      omega
    rw [hstart]
    omega
  · by_cases h365 : t = 365
    · obtain ⟨h3, h24⟩ := h.leap h365
      have hleap : leapDays (100 * c + 4 * b + a + era * 400 + 1) = 1 := by
        apply if_pos
        by_cases h' : b = 24
        · have hc3 := h24 h'
          omega
        · omega
      rw [hleap]
      omega
    · omega

theorem marchDate_later (y t : Int) : marchDate y t = (marchDate 0 t).later y := by
  unfold marchDate CivilDate.later
  simp only [Int.zero_add]

/-- The months of a March-based year, day by day. -/
theorem marchDate_table : ∀ t < 366, ∀ l < 2,
    (t + 1 < 365 + l →
      marchDate 0 (t + 1 : Nat) =
        (marchDate 0 (t : Nat)).nextBy (lengthBy l (marchDate 0 (t : Nat)).month)) ∧
    (t + 1 = 365 + l →
      (marchDate 0 0).later 1 =
        (marchDate 0 (t : Nat)).nextBy (lengthBy l (marchDate 0 (t : Nat)).month)) := by
  decide +kernel

theorem marchDate_range : ∀ t < 366, ∀ l < 2,
    (1 ≤ (marchDate 0 (t : Nat)).month ∧ (marchDate 0 (t : Nat)).month ≤ 12 ∧
      1 ≤ (marchDate 0 (t : Nat)).day) ∧
    ((marchDate 0 (t : Nat)).month = 2 → (marchDate 0 (t : Nat)).year = 1) ∧
    (t < 365 + l →
      (marchDate 0 (t : Nat)).day ≤ lengthBy l (marchDate 0 (t : Nat)).month) := by
  decide +kernel

theorem leapDays_lt (year : Int) : leapDays year < 2 := by
  unfold leapDays
  split
  next => decide
  next => decide

section
variable {y : Int} {t : Nat} (ht : t < 365 + leapDays (y + 1))
include ht

/-- The February of a March-based year is that of the next year. -/
theorem monthLength_marchDate :
    monthLength (marchDate y t).year (marchDate y t).month =
      lengthBy (leapDays (y + 1)) (marchDate 0 t).month := by
  have hl := leapDays_lt (y + 1)
  obtain ⟨-, h2, -⟩ := marchDate_range t (by omega) _ hl
  rw [marchDate_later]
  unfold monthLength CivilDate.later
  by_cases hm : (marchDate 0 t).month = 2
  · dsimp only
    rw [h2 hm]
  · exact lengthBy_of_ne hm _ _

theorem marchDate_valid : (marchDate y t).Valid := by
  have hl := leapDays_lt (y + 1)
  obtain ⟨⟨hm, hm', hd⟩, -, hd'⟩ := marchDate_range t (by omega) _ hl
  have hlen := monthLength_marchDate ht
  rw [marchDate_later] at hlen ⊢
  refine ⟨hm, hm', hd, ?_⟩
  rw [hlen]
  exact hd' ht

theorem marchDate_next : (marchDate y t).next =
    if t + 1 < 365 + leapDays (y + 1) then marchDate y (t + 1 : Nat) else marchDate (y + 1) 0 := by
  have hl := leapDays_lt (y + 1)
  obtain ⟨hinner, hlast⟩ := marchDate_table t (by omega) _ hl
  rw [CivilDate.next, monthLength_marchDate ht, marchDate_later y t, CivilDate.nextBy_later]
  split
  next h => rw [← hinner h, ← marchDate_later]
  next h =>
    rw [← hlast (by omega), marchDate_later (y + 1)]
    unfold CivilDate.later
    rw [Int.add_assoc]

end

theorem civilFromDays_next (z : Int) :
    (civilFromDays z).Valid ∧ civilFromDays (z + 1) = (civilFromDays z).next := by
  obtain ⟨y, t, hz, hstart, ht0, ht⟩ := civilFromDays_march z
  obtain ⟨y', t', hz', hstart', ht0', ht'⟩ := civilFromDays_march (z + 1)
  obtain ⟨n, rfl⟩ := Int.eq_ofNat_of_zero_le ht0
  have hn : n < 365 + leapDays (y + 1) := by omega
  rw [hz, hz']
  refine ⟨marchDate_valid hn, ?_⟩
  rw [marchDate_next hn]
  split
  next h =>
    obtain ⟨rfl, rfl⟩ := march_unique (a := y') (b := y) (s := t') (t := (n + 1 : Nat)) ht0'
      (by omega) ht' (by omega) (by omega)
    rfl
  next h =>
    have hsucc := marchStart_succ y
    obtain ⟨rfl, rfl⟩ := march_unique (a := y') (b := y + 1) (s := t') (t := 0) ht0' (by omega) ht'
      (by omega) (by omega)
    rfl

theorem civilFromDays_epoch : civilFromDays 0 = ⟨1970, 1, 1⟩ := by
  decide

theorem civilFromDays_strictMono : StrictMono fun z => (civilFromDays z).key := by
  apply strictMono_int_of_lt_succ
  intro z
  rw [(civilFromDays_next z).2]
  exact CivilDate.key_lt_nextBy _ _

theorem civilFromDays_year {z : Int} (hz : 0 ≤ z) : 1970 ≤ (civilFromDays z).year := by
  have hle := civilFromDays_strictMono.monotone hz
  dsimp only [CivilDate.key] at hle
  rw [civilFromDays_epoch, Prod.Lex.toLex_le_toLex] at hle
  rcases hle with h | h
  · exact h.le
  · exact h.1.le

/-- A number in decimal, with zeros in front up to a width. -/
def pad (width n : Nat) : List Char :=
  List.replicate (width - (Nat.toDigits 10 n).length) '0' ++ Nat.toDigits 10 n

theorem ofDigitChars_pad (width n : Nat) : Nat.ofDigitChars 10 (pad width n) 0 = n := by
  rw [pad, Nat.ofDigitChars_append, Nat.ofDigitChars_replicate_zero, Nat.mul_zero,
    Nat.ofDigitChars_ten_toDigits]

theorem pad_injective {width m n : Nat} (h : pad width m = pad width n) : m = n := by
  rw [← ofDigitChars_pad width m, h, ofDigitChars_pad]

theorem length_pad : ∀ n < 100, (pad 2 n).length = 2 := by
  decide

def timeOfDay (rem : Nat) : List Char :=
  pad 2 (rem / 3600) ++ ':' :: (pad 2 (rem % 3600 / 60) ++ ':' :: pad 2 (rem % 60))

/-- A day since 1970, and the seconds into it. -/
def stamp (days rem : Nat) : List Char :=
  let d := civilFromDays days
  pad 4 d.year.toNat ++ '-' :: (pad 2 d.month ++ '-' :: (pad 2 d.day ++
    ' ' :: (timeOfDay rem ++ ['Z'])))

def formatUtc (unixMs : UInt64) : List Char :=
  let secs := unixMs.toNat / 1000
  stamp (secs / 86400) (secs % 86400)

theorem pad_append_inj {a b : Nat} (ha : a < 100) (hb : b < 100) {x y : List Char} {c : Char}
    (h : pad 2 a ++ c :: x = pad 2 b ++ c :: y) : a = b ∧ x = y := by
  obtain ⟨hp, hxy⟩ := List.append_inj h ((length_pad a ha).trans (length_pad b hb).symm)
  exact ⟨pad_injective hp, List.tail_eq_of_cons_eq hxy⟩

theorem timeOfDay_inj {a b : Nat} (ha : a < 86400) (hb : b < 86400) {x y : List Char} {c : Char}
    (h : timeOfDay a ++ c :: x = timeOfDay b ++ c :: y) : a = b := by
  unfold timeOfDay at h
  simp only [List.append_assoc, List.cons_append] at h
  obtain ⟨hh, h⟩ := pad_append_inj (by omega) (by omega) h
  obtain ⟨hm, h⟩ := pad_append_inj (by omega) (by omega) h
  obtain ⟨hs, -⟩ := pad_append_inj (by omega) (by omega) h
  omega

theorem length_timeOfDay {rem : Nat} (h : rem < 86400) : (timeOfDay rem).length = 8 := by
  unfold timeOfDay
  rw [List.length_append, List.length_cons, List.length_append, List.length_cons,
    length_pad _ (by omega), length_pad _ (by omega), length_pad _ (by omega)]

theorem civilFromDays_fits (z : Int) :
    (civilFromDays z).month < 100 ∧ (civilFromDays z).day < 100 := by
  have hv := (civilFromDays_next z).1
  have hday := hv.day_le
  have hlen : monthLength (civilFromDays z).year (civilFromDays z).month ≤ 31 := by
    have hl := leapDays_lt (civilFromDays z).year
    unfold monthLength lengthBy
    split <;> omega
  have hmonth := hv.month_le
  omega

theorem length_stamp {month day rem : Nat} (hm : month < 100) (hd : day < 100)
    (hr : rem < 86400) :
    ('-' :: (pad 2 month ++ '-' :: (pad 2 day ++ ' ' :: (timeOfDay rem ++ ['Z'])))).length = 16 := by
  simp only [List.length_cons, List.length_append, length_pad _ hm, length_pad _ hd,
    length_timeOfDay hr, List.length_nil]

theorem stamp_inj {days days' rem rem' : Nat} (hr : rem < 86400) (hr' : rem' < 86400)
    (h : stamp days rem = stamp days' rem') : days = days' ∧ rem = rem' := by
  unfold stamp at h
  dsimp only at h
  have hfits := civilFromDays_fits days
  have hfits' := civilFromDays_fits days'
  have hlen := length_stamp hfits.1 hfits.2 hr
  have hlen' := length_stamp hfits'.1 hfits'.2 hr'
  obtain ⟨hyear, h⟩ := List.append_inj' h (hlen.trans hlen'.symm)
  obtain ⟨hmonth, h⟩ := pad_append_inj hfits.1 hfits'.1 (List.tail_eq_of_cons_eq h)
  obtain ⟨hday, h⟩ := pad_append_inj hfits.2 hfits'.2 h
  have hrem := timeOfDay_inj hr hr' h
  have hpos := civilFromDays_year (Int.natCast_nonneg days)
  have hpos' := civilFromDays_year (Int.natCast_nonneg days')
  have hyear' : (civilFromDays days).year = (civilFromDays days').year := by
    rw [← Int.toNat_of_nonneg (Int.le_trans (by decide) hpos), pad_injective hyear,
      Int.toNat_of_nonneg (Int.le_trans (by decide) hpos')]
  have hdate : (civilFromDays days).key = (civilFromDays days').key := by
    unfold CivilDate.key
    rw [hmonth, hday, hyear']
  have hdays := civilFromDays_strictMono.injective hdate
  exact ⟨Int.ofNat.inj hdays, hrem⟩

/-- Two moments are printed alike only within one second. -/
theorem formatUtc_eq_iff (a b : UInt64) :
    formatUtc a = formatUtc b ↔ a.toNat / 1000 = b.toNat / 1000 := by
  constructor
  · intro h
    obtain ⟨hdays, hrem⟩ := stamp_inj (Nat.mod_lt _ (by decide)) (Nat.mod_lt _ (by decide)) h
    rw [← Nat.div_add_mod (a.toNat / 1000) 86400, hdays, hrem, Nat.div_add_mod]
  · intro h
    unfold formatUtc
    rw [h]

end Tomo
