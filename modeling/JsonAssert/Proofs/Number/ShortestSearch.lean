import JsonAssert.Proofs.Number.Nearest
import JsonAssert.Proofs.Number.SignificantDigits

/-! The search for the shortest decimal among the values of an interval. Decimals with a given
exponent make a grid; the search ends at the coarsest grid that has a point in the interval, with a
point of this grid that is nearest to where the search began. -/
namespace JsonAssert.Shortest
open Binary64 Decimal

/-! Grids -/

/-- A point of the grid on which the last digits of a decimal are dropped. -/
def point (d : Decimal) (dropped g : ℕ) : Decimal := ⟨g, d.exponent + dropped⟩

section Grid

variable {d : Decimal} {dropped : ℕ}

theorem value_point (g : ℕ) :
    (point d dropped g).value = (g * 10 ^ dropped : ℕ) * 10 ^ d.exponent :=
  (value_of_shift rfl rfl).symm

theorem value_point_le_value_point_iff {a b : ℕ} :
    (point d dropped a).value ≤ (point d dropped b).value ↔ a ≤ b := by
  have hpos : (0 : ℚ) < 10 ^ d.exponent := by positivity
  rw [value_point, value_point, mul_le_mul_iff_left₀ hpos, Nat.cast_le,
    Nat.mul_le_mul_right_iff (by positivity)]

theorem value_point_le_iff {g : ℕ} :
    (point d dropped g).value ≤ d.value ↔ g ≤ d.digits / 10 ^ dropped := by
  have hpos : (0 : ℚ) < 10 ^ d.exponent := by positivity
  rw [value_point, Decimal.value, mul_le_mul_iff_left₀ hpos, Nat.cast_le,
    Nat.le_div_iff_mul_le (by positivity)]

theorem value_le_point_succ : d.value ≤ (point d dropped (d.digits / 10 ^ dropped + 1)).value :=
  (not_le.mp fun hle => absurd (value_point_le_iff.mp hle) (by omega)).le

theorem abs_value_point_sub (g : ℕ) :
    |(point d dropped g).value - d.value| =
      distance d.digits (10 ^ dropped) g * 10 ^ d.exponent := by
  have hpos : (0 : ℚ) < 10 ^ d.exponent := by positivity
  rw [value_point, Decimal.value, ← sub_mul, abs_mul, abs_of_pos hpos, distance, Nat.cast_natAbs,
    Int.cast_abs]
  push_cast
  rfl

end Grid

/-! The neighbours on a grid -/

/-- The neighbour that is tried first is nearest on the grid, and the second one is on the other
side. -/
theorem neighbours_cases (d : Decimal) (dropped : ℕ) :
    ∃ first second, neighbours d dropped = [point d dropped first, point d dropped second] ∧
      (∀ g, |(point d dropped first).value - d.value| ≤ |(point d dropped g).value - d.value|) ∧
      (first = d.digits / 10 ^ dropped ∧ second = d.digits / 10 ^ dropped + 1 ∨
        first = d.digits / 10 ^ dropped + 1 ∧ second = d.digits / 10 ^ dropped) := by
  have hpos : (0 : ℚ) < 10 ^ d.exponent := by positivity
  refine ⟨_, _, rfl, fun g => ?_, ?_⟩
  · rw [abs_value_point_sub, abs_value_point_sub, mul_le_mul_iff_left₀ hpos, Nat.cast_le]
    exact (distance_roundHalfEven d.digits (Nat.pow_pos (by decide)) g).1
  · rcases roundHalfEven_cases d.digits (10 ^ dropped) with ⟨hfirst, -⟩ | ⟨hfirst, -⟩
    · exact .inl ⟨hfirst, if_pos hfirst⟩
    · exact .inr ⟨hfirst, if_neg (by omega)⟩

variable {readsBack : Decimal → Bool} {S : Set ℚ}

/-- Where the grid has a point in the interval, one of the neighbours is found, and it is as near as
this point. -/
theorem find?_neighbours (hS : S.OrdConnected) (hreads : ∀ c, readsBack c = true ↔ c.value ∈ S)
    {d : Decimal} (hd : d.value ∈ S) {dropped g : ℕ} (hg : (point d dropped g).value ∈ S) :
    ∃ r, (neighbours d dropped).find? readsBack = some r ∧
      |r.value - d.value| ≤ |(point d dropped g).value - d.value| := by
  obtain ⟨first, second, hlist, hnear, hsides⟩ := neighbours_cases d dropped
  rw [hlist]
  by_cases hfirst : readsBack (point d dropped first) = true
  · exact ⟨_, List.find?_cons_of_pos hfirst, hnear g⟩
  · -- The first one is not in the interval, so the point is on the side of the second one.
    have hout : (point d dropped first).value ∉ S := fun h => hfirst ((hreads _).mpr h)
    have hsecond : (point d dropped second).value ∈ S ∧
        |(point d dropped second).value - d.value| ≤ |(point d dropped g).value - d.value| := by
      rcases hsides with ⟨rfl, rfl⟩ | ⟨rfl, rfl⟩
      · have hside : d.digits / 10 ^ dropped + 1 ≤ g := by
          by_contra hlt
          exact hout (hS.out hg hd ⟨value_point_le_value_point_iff.mpr (by omega),
            value_point_le_iff.mpr le_rfl⟩)
        have habove : d.value ≤ (point d dropped (d.digits / 10 ^ dropped + 1)).value :=
          value_le_point_succ
        have hbelow : (point d dropped _).value ≤ (point d dropped g).value :=
          value_point_le_value_point_iff.mpr hside
        refine ⟨hS.out hd hg ⟨habove, hbelow⟩, ?_⟩
        rw [abs_of_nonneg (by linarith), abs_of_nonneg (by linarith)]
        linarith
      · have hside : g ≤ d.digits / 10 ^ dropped := by
          by_contra hlt
          exact hout (hS.out hd hg ⟨value_le_point_succ,
            value_point_le_value_point_iff.mpr (by omega)⟩)
        have hbelow : (point d dropped (d.digits / 10 ^ dropped)).value ≤ d.value :=
          value_point_le_iff.mpr le_rfl
        have habove : (point d dropped g).value ≤ (point d dropped _).value :=
          value_point_le_value_point_iff.mpr hside
        refine ⟨hS.out hg hd ⟨habove, hbelow⟩, ?_⟩
        rw [abs_of_nonpos (by linarith), abs_of_nonpos (by linarith)]
        linarith
    refine ⟨point d dropped second, ?_, hsecond.2⟩
    rw [List.find?_cons_of_neg hfirst, List.find?_cons_of_pos ((hreads _).mpr hsecond.1)]

/-! The search -/

theorem point_zero (d : Decimal) : point d 0 d.digits = d := by simp [point]

theorem neighbours_zero (d : Decimal) : ∃ second, neighbours d 0 = [d, second] := by
  have hfirst : roundHalfEven d.digits (10 ^ 0) = d.digits := by
    simpa using roundHalfEven_mul_self d.digits (d := 1) (by decide)
  refine ⟨_, congrArg (· :: _) ?_⟩
  rw [hfirst]
  exact point_zero d

/-- The search ends on the coarsest grid on which a neighbour is found. -/
theorem search_cases {d : Decimal} (hd : readsBack d = true) (hdigits : d.digits ≠ 0) (bound : ℕ) :
    ∃ dropped ≤ bound, 10 ^ dropped ≤ d.digits ∧
      (neighbours d dropped).find? readsBack = some (search readsBack d bound) ∧
      ∀ k, dropped < k → k ≤ bound → 10 ^ k ≤ d.digits →
        (neighbours d k).find? readsBack = none := by
  induction bound with
  | zero =>
    obtain ⟨second, hneighbours⟩ := neighbours_zero d
    refine ⟨0, le_rfl, by simpa using Nat.one_le_iff_ne_zero.mpr hdigits, ?_, by omega⟩
    rw [hneighbours, List.find?_cons_of_pos hd, search]
  | succ bound ih =>
    obtain ⟨dropped, hle, hpow, hfound, hnone⟩ := ih
    rw [search]
    split_ifs with hsmall
    · refine ⟨dropped, by omega, hpow, hfound, fun k hk hbound hdigits => hnone k hk ?_ hdigits⟩
      by_contra hlast
      obtain rfl : k = bound + 1 := by omega
      omega
    · split
      · next shorter hshorter =>
        exact ⟨bound + 1, le_rfl, not_lt.mp hsmall, hshorter, by omega⟩
      · next hlonger =>
        refine ⟨dropped, by omega, hpow, hfound, fun k hk hbound hdigits => ?_⟩
        rcases Nat.lt_or_ge bound k with hlast | hle
        · obtain rfl : k = bound + 1 := by omega
          exact hlonger
        · exact hnone k hk hle hdigits

theorem abs_sub_le_of_between {q r v : ℚ} (hle : q ≤ r) (hge : r ≤ v) : |r - v| ≤ |q - v| := by
  rw [abs_of_nonpos (by linarith), abs_of_nonpos (by linarith)]
  linarith

/-- Where a value of the interval has few digits, the grid of decimals with as many has a point in
the interval that is as near: the value itself, or a power of ten above it. -/
theorem exists_point (hS : S.OrdConnected) {d : Decimal} (hd : d.value ∈ S)
    (hdigits : d.digits ≠ 0) {p : ℕ} {q : ℚ} (hq : q ∈ S) (hpos : 0 < q) (hp : HasDigits p q) :
    ∃ g, (point d (Nat.log 10 d.digits + 1 - p) g).value ∈ S ∧
      |(point d (Nat.log 10 d.digits + 1 - p) g).value - d.value| ≤ |q - d.value| := by
  have hp0 := hp.pos hpos
  obtain ⟨c, j, hc, rfl⟩ := hp
  rcases Nat.lt_or_ge (Nat.log 10 d.digits) p with hmany | hfew
  · rw [Nat.sub_eq_zero_of_le hmany]
    refine ⟨d.digits, ?_, ?_⟩
    · rwa [point_zero]
    · rw [point_zero, sub_self, abs_zero]
      exact abs_nonneg _
  · set k := Nat.log 10 d.digits + 1 - p with hk
    rcases le_or_gt (d.exponent + k) j with hcoarse | hfine
    · have hvalue : (point d k (c * 10 ^ (j - (d.exponent + k)).toNat)).value = value ⟨c, j⟩ :=
        value_of_shift (x := j) rfl (by omega)
      exact ⟨_, by rwa [hvalue], by rw [hvalue]⟩
    · have habove : value ⟨c, j⟩ ≤ (point d k (10 ^ (p - 1))).value := by
        have hexponent : (p : ℤ) + j ≤ (p - 1 : ℕ) + (d.exponent + k) := by omega
        calc value ⟨c, j⟩ ≤ 10 ^ p * 10 ^ j := by
              refine mul_le_mul_of_nonneg_right ?_ (by positivity)
              exact_mod_cast hc.le
          _ = 10 ^ ((p : ℤ) + j) := by rw [zpow_add₀ (by norm_num), zpow_natCast]
          _ ≤ 10 ^ (((p - 1 : ℕ) : ℤ) + (d.exponent + k)) :=
              zpow_le_zpow_right₀ (by norm_num) hexponent
          _ = (point d k (10 ^ (p - 1))).value := by
              rw [zpow_add₀ (by norm_num), zpow_natCast, point, Decimal.value]
              push_cast
              rfl
      have hbelow : (point d k (10 ^ (p - 1))).value ≤ d.value := by
        have hsum : p - 1 + k = Nat.log 10 d.digits := by omega
        rw [value_point_le_iff, Nat.le_div_iff_mul_le (by positivity), ← pow_add, hsum]
        exact Nat.pow_log_le_self 10 hdigits
      exact ⟨_, hS.out hq hd ⟨habove, hbelow⟩, abs_sub_le_of_between habove hbelow⟩

theorem size_le_of_mem_neighbours {d r : Decimal} {k : ℕ} (hk : k ≤ Nat.log 10 d.digits)
    (hr : r ∈ neighbours d k) : r.size ≤ Nat.log 10 d.digits + 1 - k := by
  have hlow : d.digits / 10 ^ k < 10 ^ (Nat.log 10 d.digits + 1 - k) := by
    rw [Nat.div_lt_iff_lt_mul (by positivity), ← pow_add, Nat.sub_add_cancel (by omega)]
    exact Nat.lt_pow_succ_log_self (by decide) d.digits
  apply size_le_of_le_pow (by omega)
  obtain ⟨first, second, hlist, -, hsides⟩ := neighbours_cases d k
  rw [hlist] at hr
  rcases List.mem_pair.mp hr with rfl | rfl <;> rcases hsides with ⟨rfl, rfl⟩ | ⟨rfl, rfl⟩ <;>
    simp only [point] <;> omega

/-- No value of the interval has fewer digits than the decimal that is found, and none with as many
is nearer to where the search began. -/
theorem search_shortest (hS : S.OrdConnected) (hpositive : ∀ q ∈ S, 0 < q)
    (hreads : ∀ c, readsBack c = true ↔ c.value ∈ S) {d : Decimal} (hd : d.value ∈ S)
    {bound : ℕ} (hbound : Nat.log 10 d.digits ≤ bound) {p : ℕ} {q : ℚ} (hq : q ∈ S)
    (hp : HasDigits p q) :
    (search readsBack d bound).size ≤ p ∧
      ((search readsBack d bound).size = p →
        |(search readsBack d bound).value - d.value| ≤ |q - d.value|) := by
  have hdigits : d.digits ≠ 0 := by
    intro hzero
    have := hpositive _ hd
    simp [Decimal.value, hzero] at this
  obtain ⟨k, -, hpow, hfound, hnone⟩ := search_cases ((hreads d).mpr hd) hdigits bound
  have hk : k ≤ Nat.log 10 d.digits := Nat.le_log_of_pow_le (by decide) hpow
  have hsize := size_le_of_mem_neighbours hk (List.mem_of_find?_eq_some hfound)
  obtain ⟨g, hg, hnear⟩ := exists_point hS hd hdigits hq (hpositive q hq) hp
  obtain ⟨r, hr, hle⟩ := find?_neighbours hS hreads hd hg
  have hcoarsest : Nat.log 10 d.digits + 1 - p ≤ k := by
    by_contra hlt
    have hp0 := hp.pos (hpositive q hq)
    have hnot := hnone _ (not_le.mp hlt) (by omega) (Nat.pow_le_of_le_log hdigits (by omega))
    exact Option.some_ne_none r (hr.symm.trans hnot)
  refine ⟨by omega, fun hsame => ?_⟩
  obtain rfl : k = Nat.log 10 d.digits + 1 - p := by omega
  obtain rfl : r = search readsBack d bound := Option.some.inj (hr.symm.trans hfound)
  exact hle.trans hnear

end JsonAssert.Shortest
