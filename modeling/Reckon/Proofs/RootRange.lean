import Reckon.Proofs.RealAxis

/-! The range of the square root. The root of a finite number has a modulus of at most 2^512 or so,
but three of the numbers that it is computed from can leave the range: the modulus itself, the
modulus less a negative real part, and half of the least number there is. The root is finite exactly
when none of them does, and then neither part is above 2^512. -/

set_option autoImplicit false

namespace Reckon
namespace Binary64

theorem rootLimit_eq : rootLimit = 2 ^ 1586 := by
  decide +kernel

theorem exists_pow_le {n : Nat} (hn : Storable n) :
    ∃ i ≤ 2096, n < 2 ^ (i + 2) ∧ ∀ total, n ≤ total → 2 ≤ total → 2 * 2 ^ i ≤ total := by
  have hlimit : unitLimit = 2 ^ 2098 := by decide +kernel
  have hlog : n.log2 < 2098 := by
    by_cases hzero : n = 0
    · rw [hzero]
      decide
    · exact (Nat.log2_lt hzero).2 (hlimit ▸ hn.2)
  refine ⟨n.log2 - 1, by omega, ?_, fun total hle htwo => ?_⟩
  · exact Nat.lt_of_lt_of_le Nat.lt_log2_self (Nat.pow_le_pow_right Nat.two_pos (by omega))
  · rw [Nat.mul_comm, ← Nat.pow_succ]
    by_cases hsmall : n.log2 = 0
    · rw [hsmall]
      exact htwo
    · rw [Nat.succ_eq_add_one, Nat.sub_add_cancel (by omega)]
      exact Nat.le_trans (Nat.log2_self_le (by rintro rfl; exact hsmall rfl)) hle

/-- A root and what is divided by twice it are in range if the number under the root is not too
small for the dividend. -/
theorem between_sqrt_and_div {x : Binary64} {i b n : Nat} (hx : Between (2 ^ i) b x)
    (hi : i ≤ 2096) (hlt : n < 2 ^ (i + 2)) (t : Bool) (hn : Storable n) :
    Between 0 rootLimit x.sqrt ∧ Between 0 rootLimit (.finite t n hn / (2 * x.sqrt)).abs := by
  have htwice : Storable (2 * rootLimit) := by decide +kernel
  have hroot : Between (2 ^ ((i + 1074) / 2)) rootLimit x.sqrt := by
    refine hx.sqrt (fits_pow _) ?_
    calc 2 ^ ((i + 1074) / 2) * 2 ^ ((i + 1074) / 2)
        = 2 ^ ((i + 1074) / 2 + (i + 1074) / 2) := (Nat.pow_add 2 _ _).symm
      _ ≤ 2 ^ (i + 1074) := Nat.pow_le_pow_right Nat.two_pos (by omega)
      _ = 2 ^ i * unitsPerOne := by rw [unitsPerOne_eq, Nat.pow_add]
  have hdouble : Between (2 ^ ((i + 1074) / 2 + 1)) (2 * rootLimit) (2 * x.sqrt) :=
    hroot.double (fits_pow _) htwice (by rw [Nat.pow_succ]; omega) (Nat.le_refl _)
  refine ⟨hroot.mono (Nat.zero_le _) (Nat.le_refl _), hdouble.div (Nat.two_pow_pos _)
    storable_rootLimit ?_⟩
  calc n * unitsPerOne ≤ 2 ^ (i + 2) * 2 ^ 1074 := by
        rw [unitsPerOne_eq]
        exact Nat.mul_le_mul_right _ (Nat.le_of_lt hlt)
    _ = 2 ^ (i + 2 + 1074) := (Nat.pow_add 2 _ _).symm
    _ ≤ 2 ^ (1586 + ((i + 1074) / 2 + 1)) := Nat.pow_le_pow_right Nat.two_pos (by omega)
    _ = rootLimit * 2 ^ ((i + 1074) / 2 + 1) := by rw [rootLimit_eq, Nat.pow_add 2 1586]

theorem exists_hypot {s t : Bool} {m n : Nat} {hm : Storable m} {hn : Storable n}
    (h : (hypot (.finite s m hm) (.finite t n hn)).isFinite = true) :
    ∃ p r hr, hypot (.finite s m hm) (.finite t n hn) = .finite p r hr ∧ signed p r = r ∧
      m ≤ r ∧ n ≤ r := by
  obtain ⟨num, hroot, hlow, -⟩ := exists_ofRoot (m * m + n * n)
  rw [hypot, hroot] at h ⊢
  have hside {k : Nat} (hk : Fits k) (hle : k * k ≤ m * m + n * n) :=
    between_ofRatio_of_isFinite rfl hk (by omega) (hlow k hle) h
  obtain ⟨p, r, hr, heq, hmr, -, hp⟩ := (hside hm.fits (by omega)).cases
  have hnr := hside hn.fits (by omega)
  rw [heq] at hnr ⊢
  exact ⟨p, r, hr, rfl, hp, hmr, hnr.1⟩

theorem infinite_add {y : Binary64} (h : Reaches 0 y) :
    Binary64.infinite false + y = .infinite false := by
  cases y with
  | nan => exact h.elim
  | infinite s =>
    obtain rfl : s = false := h
    rfl
  | finite s u hu => rfl

theorem infinite_half : Binary64.infinite false / 2 = .infinite false := by
  rw [two_eq]
  rfl

theorem midpoint_infinite {y : Binary64} (h : Reaches 0 y) :
    midpoint (.infinite false) y = .infinite false := by
  have hlarge : ((Binary64.infinite false).abs.atMost halfLargest) = false := by decide +kernel
  have hbelow : ¬ (Binary64.infinite false).abs.below twiceLeastNormal = true := by decide +kernel
  rw [midpoint, hlarge, Bool.false_and, if_neg Bool.false_ne_true, if_neg hbelow, infinite_half,
    infinite_add h, infinite_add h.half, ite_self]

theorem isFinite_abs (x : Binary64) : x.abs.isFinite = x.isFinite := by
  cases x <;> rfl

theorem isFinite_copySign (x y : Binary64) : (x.copySign y).isFinite = x.isFinite := by
  cases x <;> rfl

theorem abs_eq_least {s : Bool} {u : Nat} {hu : Storable u} :
    (Binary64.finite s u hu).abs = least ↔ u = 1 := by
  constructor
  · intro h
    exact (Binary64.finite.inj h).2
  · rintro rfl
    rfl

end Binary64

namespace Complex
open Binary64

/-- Nothing that the root is computed from leaves the range of the finite numbers. -/
structure RootInRange (z : Complex) : Prop where
  modulus : (hypot z.re z.im).isFinite = true
  /-- Left of the imaginary axis the real part adds to the modulus. -/
  left : below z.re 0 = true → (hypot z.re z.im - z.re).isFinite = true
  /-- On the axis the modulus is halved. -/
  axis : z.re.isZero = true → z.im.abs ≠ least

def RootBounded (w : Complex) : Prop := Between 0 rootLimit w.re.abs ∧ Between 0 rootLimit w.im.abs

variable {s t : Bool} {m n : Nat} {hm : Storable m} {hn : Storable n}

theorem rootBounded_of_reaches (hre : Reaches 0 (.finite s m hm)) (hne : m ≠ 0 ∨ n ≠ 0)
    (hrange : RootInRange ⟨.finite s m hm, .finite t n hn⟩) :
    let z : Complex := ⟨.finite s m hm, .finite t n hn⟩
    let root := (midpoint (hypot z.re z.im) z.re).sqrt
    RootBounded ⟨root, z.im / (2 * root)⟩ := by
  intro z root
  obtain ⟨p, r, hr, hmodulus, hp, hmr, hnr⟩ := exists_hypot hrange.modulus
  obtain ⟨i, hi, hlt, hle⟩ := exists_pow_le hn
  have hs : signed s m = m := signed_eq_self_iff.2 (by
    rcases reaches_finite.1 hre with ⟨hs, -⟩ | ⟨-, -, hm0⟩
    · exact .inl hs
    · exact .inr hm0)
  -- One unit would be lost when it is halved.
  have htwo : 2 ≤ r + m := by
    have haxis : m = 0 → n ≠ 1 := fun hm0 hn1 =>
      hrange.axis (beq_iff_eq.2 hm0) (abs_eq_least.2 hn1)
    omega
  have hmiddle := between_midpoint hr hm hp hs hmr (fits_pow i)
    (hle (r + m) (by omega) htwo)
  rw [← hmodulus] at hmiddle
  obtain ⟨hroot, hquot⟩ := between_sqrt_and_div hmiddle hi hlt t hn
  exact ⟨hroot.abs, hquot⟩

theorem rootBounded_of_not_reaches (hre : ¬ Reaches 0 (.finite s m hm))
    (hrange : RootInRange ⟨.finite s m hm, .finite t n hn⟩) :
    let z : Complex := ⟨.finite s m hm, .finite t n hn⟩
    let root := ((hypot z.re z.im - z.re) / 2).sqrt
    RootBounded ⟨z.im.abs / (2 * root), root.copySign z.im⟩ := by
  intro z root
  obtain ⟨rfl, hm0⟩ := not_reaches_zero.1 hre
  obtain ⟨p, r, hr, hmodulus, hp, hmr, hnr⟩ := exists_hypot hrange.modulus
  obtain ⟨i, hi, hlt, hle⟩ := exists_pow_le hn
  have hsum : hypot z.re z.im - z.re = ofRatio false (r + m) 1 := by
    have htotal : (Binary64.finite p r hr) - .finite true m hm =
        ofTotal (p && false) (signed p r + signed false m) 1 := rfl
    have hfalse : signed false m = m := rfl
    rw [hmodulus, htotal, hp, hfalse, ofTotal, if_neg (by omega), decide_eq_false (by omega)]
    rfl
  have hwhole : Between (2 * 2 ^ i) (2 * halfLargestUnits) (hypot z.re z.im - z.re) := by
    have hfinite : (hypot z.re z.im - z.re).isFinite = true := hrange.left (finite_below_zero.2 hre)
    rw [hsum] at hfinite ⊢
    have := hle (r + m) (by omega) (by omega)
    exact between_ofRatio_of_isFinite rfl (fits_pow i).double Nat.one_pos (by omega) hfinite
  have hhalf := hwhole.half (fits_pow i) storable_halfLargestUnits (Nat.le_refl _) (Nat.le_refl _)
  obtain ⟨hroot, hquot⟩ := between_sqrt_and_div hhalf hi hlt false hn
  refine ⟨hquot, ?_⟩
  obtain ⟨q, u, hu, hsqrt, hlow, hhigh, -⟩ := hroot.cases
  show Between 0 rootLimit (root.copySign z.im).abs
  rw [show root = .finite q u hu from hsqrt]
  exact ⟨hlow, hhigh, rfl⟩

theorem RootBounded.isFinite {w : Complex} (h : RootBounded w) :
    w.re.isFinite = true ∧ w.im.isFinite = true := by
  obtain ⟨re, im⟩ := w
  exact ⟨(isFinite_abs re).symm.trans h.1.isFinite, (isFinite_abs im).symm.trans h.2.isFinite⟩

theorem rootInRange_of_reaches (hre : Reaches 0 (.finite s m hm)) (hne : m ≠ 0 ∨ n ≠ 0)
    (h : (midpoint (hypot (.finite s m hm) (.finite t n hn)) (.finite s m hm)).sqrt.isFinite = true)
    (haxis : m = 0 → n ≠ 1) : RootInRange ⟨.finite s m hm, .finite t n hn⟩ where
  modulus := by
    rcases (atLeast_hypot hne).cases with hinf | ⟨r, hr, heq, -⟩
    · rw [hinf, midpoint_infinite hre] at h
      cases h
    · exact congrArg Binary64.isFinite heq
  left hbelow := absurd hre (finite_below_zero.1 hbelow)
  axis hzero := fun hleast => haxis (beq_iff_eq.1 hzero) (abs_eq_least.1 hleast)

theorem rootInRange_of_not_reaches (hre : ¬ Reaches 0 (.finite s m hm))
    (h : ((hypot (.finite s m hm) (.finite t n hn) - .finite s m hm) / 2).sqrt.isFinite = true) :
    RootInRange ⟨.finite s m hm, .finite t n hn⟩ := by
  obtain ⟨rfl, hm0⟩ := not_reaches_zero.1 hre
  have hneg : Reaches 1 (.finite false m hm) := reaches_finite.2 (.inl ⟨rfl, by omega⟩)
  have hmodulus : AtLeast 1 (hypot (.finite true m hm) (.finite t n hn)) := atLeast_hypot (.inl hm0)
  have hsum : AtLeast 1 (hypot (.finite true m hm) (.finite t n hn) - .finite true m hm) :=
    hmodulus.add hneg (by omega) (by omega)
  have hfinite :
      (hypot (.finite true m hm) (.finite t n hn) - .finite true m hm).isFinite = true := by
    rcases hsum.cases with hinf | ⟨u, hu, heq, -⟩
    · rw [hinf, infinite_half] at h
      cases h
    · exact congrArg Binary64.isFinite heq
  refine ⟨?_, fun _ => hfinite, fun hzero => absurd (beq_iff_eq.1 hzero) hm0⟩
  rcases hmodulus.cases with hinf | ⟨r, hr, heq, -⟩
  · have hoverflow : hypot (.finite true m hm) (.finite t n hn) - .finite true m hm =
        .infinite false := by
      rw [hinf]
      rfl
    rw [hoverflow] at hfinite
    cases hfinite
  · exact congrArg Binary64.isFinite heq

theorem sqrt_cases (s t : Bool) (hm : Storable m) (hn : Storable n) :
    let z : Complex := ⟨.finite s m hm, .finite t n hn⟩
    (m = 0 ∧ n = 0 ∧ z.sqrt = ⟨0, z.im⟩) ∨
    ((m ≠ 0 ∨ n ≠ 0) ∧ Reaches 0 z.re ∧
      z.sqrt = ⟨(midpoint (hypot z.re z.im) z.re).sqrt,
        z.im / (2 * (midpoint (hypot z.re z.im) z.re).sqrt)⟩) ∨
    (¬ Reaches 0 z.re ∧
      z.sqrt = ⟨z.im.abs / (2 * ((hypot z.re z.im - z.re) / 2).sqrt),
        ((hypot z.re z.im - z.re) / 2).sqrt.copySign z.im⟩) := by
  intro z
  have hzero : z.isZero = true ↔ m = 0 ∧ n = 0 := by
    rw [Complex.isZero, Bool.and_eq_true_iff]
    exact and_congr beq_iff_eq beq_iff_eq
  by_cases hz : m = 0 ∧ n = 0
  · exact .inl ⟨hz.1, hz.2, sqrt_of_isZero (hzero.2 hz)⟩
  · have hz' : z.isZero = false := Bool.eq_false_iff.2 fun h => hz (hzero.1 h)
    by_cases hre : Reaches 0 z.re
    · exact .inr (.inl ⟨by omega, hre, sqrt_of_reaches hz' (zero_atMost_finite.2 hre)⟩)
    · exact .inr (.inr ⟨hre, sqrt_of_not_reaches hz' fun h => hre (zero_atMost_finite.1 h)⟩)

theorem hypot_eq_infinite (h : unitLimit * unitLimit ≤ m * m + n * n) :
    hypot (.finite s m hm) (.finite t n hn) = .infinite false := by
  have hpow : unitLimit = 2 ^ 2098 := by decide +kernel
  have hfits : Fits unitLimit := hpow ▸ fits_pow 2098
  obtain ⟨num, hroot, hlow, -⟩ := exists_ofRoot (m * m + n * n)
  rw [hypot, hroot]
  exact ofRatio_eq_infinite false hfits (by omega) (Nat.le_refl _) (hlow _ h)

theorem sqrt_re_of_overflow (hre : Reaches 0 (.finite s m hm))
    (h : unitLimit * unitLimit ≤ m * m + n * n) :
    (sqrt ⟨.finite s m hm, .finite t n hn⟩).re = .infinite false := by
  rcases sqrt_cases s t hm hn with ⟨rfl, rfl, -⟩ | ⟨-, -, hroot⟩ | ⟨hnot, -⟩
  · exact absurd h (by decide +kernel)
  · rw [hroot, hypot_eq_infinite h, midpoint_infinite hre]
    rfl
  · exact absurd hre hnot

theorem storable_one : Storable 1 := by decide +kernel

/-- Half of the least number vanishes, and the imaginary part is divided by nothing. -/
theorem sqrt_least (s t : Bool) :
    (sqrt ⟨zero s, .finite t 1 storable_one⟩).im.isFinite = false := by
  cases s <;> cases t <;> decide +kernel

theorem rootInRange_of_isZero (s t : Bool) (hm : Storable 0) (hn : Storable 0) :
    RootInRange ⟨.finite s 0 hm, .finite t 0 hn⟩ where
  modulus := by
    have hroot : Between 0 0 (ofRoot 0) :=
      between_ofRoot storable_zero.fits storable_zero (Nat.le_refl _) (Nat.le_refl _)
    exact hroot.isFinite
  left hbelow := by
    have hreach : Reaches 0 (.finite s 0 hm) := by cases s <;> simp [reaches_finite]
    exact absurd hreach (finite_below_zero.1 hbelow)
  axis _ hleast := by
    have := abs_eq_least.1 hleast
    omega

theorem RootInRange.rootBounded (h : RootInRange ⟨.finite s m hm, .finite t n hn⟩) :
    RootBounded (sqrt ⟨.finite s m hm, .finite t n hn⟩) := by
  rcases sqrt_cases s t hm hn with ⟨rfl, rfl, hroot⟩ | ⟨hne, hre, hroot⟩ | ⟨hre, hroot⟩
  · rw [hroot, zero_eq]
    exact ⟨⟨Nat.le_refl 0, Nat.zero_le _, rfl⟩, ⟨Nat.le_refl 0, Nat.zero_le _, rfl⟩⟩
  · rw [hroot]
    exact rootBounded_of_reaches hre hne h
  · rw [hroot]
    exact rootBounded_of_not_reaches hre h

theorem rootInRange_of_isFinite
    (hre : (sqrt ⟨.finite s m hm, .finite t n hn⟩).re.isFinite = true)
    (him : (sqrt ⟨.finite s m hm, .finite t n hn⟩).im.isFinite = true) :
    RootInRange ⟨.finite s m hm, .finite t n hn⟩ := by
  rcases sqrt_cases s t hm hn with ⟨rfl, rfl, -⟩ | ⟨hne, hreach, hroot⟩ | ⟨hreach, hroot⟩
  · exact rootInRange_of_isZero s t hm hn
  · have haxis : m = 0 → n ≠ 1 := by
      rintro rfl rfl
      exact Bool.false_ne_true ((sqrt_least s t).symm.trans him)
    rw [hroot] at hre
    exact rootInRange_of_reaches hreach hne hre haxis
  · rw [hroot] at him
    exact rootInRange_of_not_reaches hreach ((isFinite_copySign _ _).symm.trans him)

/-- Parts of at most a quarter of where the finite numbers end leave room for the modulus and for a
part added to it. -/
theorem rootInRange_of_le {e : Nat} (he : unitLimit = 2 ^ (e + 2)) (hme : m ≤ 2 ^ e)
    (hne : n ≤ 2 ^ e) (haxis : m = 0 → n ≠ 1) :
    RootInRange ⟨.finite s m hm, .finite t n hn⟩ := by
  have hpow : 2 ^ (e + 2) = 4 * 2 ^ e := by rw [Nat.pow_add, Nat.mul_comm]
  have hpos : 0 < 2 ^ e := Nat.two_pow_pos e
  have htwo : Storable (2 * 2 ^ e) := ⟨(fits_pow e).double, by omega⟩
  have hthree : Storable (3 * 2 ^ e) := ⟨mul_pow_mod_lastPlace (by omega), by omega⟩
  have hmodulus : Between 0 (2 * 2 ^ e) (hypot (.finite s m hm) (.finite t n hn)) := by
    have hmm : m * m ≤ 2 ^ e * 2 ^ e := Nat.mul_self_le_mul_self hme
    have hnn : n * n ≤ 2 ^ e * 2 ^ e := Nat.mul_self_le_mul_self hne
    have hsquare : 2 * 2 ^ e * (2 * 2 ^ e) = 4 * (2 ^ e * 2 ^ e) := Nat.mul_mul_mul_comm 2 _ 2 _
    exact between_ofRoot storable_zero.fits htwo (Nat.zero_le _) (by omega)
  refine ⟨hmodulus.isFinite, fun hbelow => ?_, fun hzero hleast =>
    haxis (beq_iff_eq.1 hzero) (abs_eq_least.1 hleast)⟩
  obtain ⟨rfl, -⟩ := not_reaches_zero.1 (finite_below_zero.1 hbelow)
  have hpart : Between m m (-Binary64.finite true m hm) := ⟨Nat.le_refl m, Nat.le_refl m, rfl⟩
  exact (hmodulus.add hpart storable_zero.fits hthree (Nat.zero_le _) (by omega)).isFinite

theorem quarter_exponent_lt : 2045 < 2047 := by omega

/-- The magnitude 2^1022, a quarter of where the finite numbers end. -/
def quarterLimit : Binary64 := power 2045 quarter_exponent_lt

theorem abs_atMost_quarterLimit {u : Nat} {hu : Storable u} :
    (Binary64.finite s u hu).abs.atMost quarterLimit = true ↔ u ≤ 2 ^ 2096 := by
  have hunits : fieldUnits 2045 0 = 2 ^ 2096 := by decide +kernel
  rw [← hunits]
  exact atMost_finite.trans Int.ofNat_le

/-- The root of a finite number is finite exactly if the modulus, the sum of the modulus and the
magnitude of a negative real part, and half of what is under the root on the imaginary axis all stay
in range. Neither part is then above 2^512. Parts of up to 2^1022 stay in range but for the least
number on the imaginary axis. -/
theorem isFinite_sqrt_iff {z : Complex} (hre : z.re.isFinite = true) (him : z.im.isFinite = true) :
    (z.sqrt.re.isFinite = true ∧ z.sqrt.im.isFinite = true ↔ z.RootInRange) ∧
      (z.RootInRange → z.sqrt.RootBounded) ∧
      (z.re.abs.atMost quarterLimit = true → z.im.abs.atMost quarterLimit = true →
        (z.re.isZero = true → z.im.abs ≠ least) → z.RootInRange) := by
  obtain ⟨re, im⟩ := z
  obtain ⟨s, m, hm, rfl⟩ := exists_finite hre
  obtain ⟨t, n, hn, rfl⟩ := exists_finite him
  refine ⟨⟨fun h => rootInRange_of_isFinite h.1 h.2, fun h => h.rootBounded.isFinite⟩,
    fun h => h.rootBounded, fun hres hims haxis => ?_⟩
  exact rootInRange_of_le (by decide +kernel) (abs_atMost_quarterLimit.1 hres)
    (abs_atMost_quarterLimit.1 hims) fun hm0 hn1 => haxis (beq_iff_eq.2 hm0) (abs_eq_least.2 hn1)

theorem isFinite_sqrt_up_to_quarterLimit :
    (-quarterLimit).isFinite = true ∧ quarterLimit.isFinite = true ∧
      (sqrt ⟨-quarterLimit, quarterLimit⟩).re.isFinite = true ∧
      (sqrt ⟨-quarterLimit, quarterLimit⟩).im.isFinite = true ∧
      RootBounded (sqrt ⟨-quarterLimit, quarterLimit⟩) := by
  have hre : (-quarterLimit).isFinite = true := by decide +kernel
  have him : quarterLimit.isFinite = true := by decide +kernel
  obtain ⟨hfinite, hbounded, hsmall⟩ :=
    isFinite_sqrt_iff (z := ⟨-quarterLimit, quarterLimit⟩) hre him
  have hzero : (-quarterLimit).isZero = false := by decide +kernel
  have hrange := hsmall (by decide +kernel) (by decide +kernel) fun h =>
    absurd (hzero.symm.trans h) Bool.false_ne_true
  obtain ⟨hreFinite, himFinite⟩ := hfinite.2 hrange
  exact ⟨hre, him, hreFinite, himFinite, hbounded hrange⟩

/-- The root of a finite number can be infinite at either end of the range. -/
theorem not_isFinite_sqrt_of_isFinite :
    sqrt ⟨0, least⟩ = ⟨0, .infinite false⟩ ∧
      (∃ r, sqrt ⟨-largest, 0⟩ = ⟨r, .infinite false⟩) ∧
      (sqrt ⟨largest, largest⟩).re = .infinite false ∧
      ¬ ∀ z : Complex, z.re.isFinite = true → z.im.isFinite = true →
        z.sqrt.re.isFinite = true ∧ z.sqrt.im.isFinite = true := by
  have hleast : sqrt ⟨0, least⟩ = ⟨0, .infinite false⟩ := by decide +kernel
  have hstorable : Storable (fieldUnits 2046 (2 ^ 52 - 1)) :=
    storable_fieldUnits (by omega) (by omega)
  refine ⟨hleast, ?_, ?_, fun hclaim => ?_⟩
  · have hlt : halfLargestUnits < fieldUnits 2046 (2 ^ 52 - 1) := by decide +kernel
    obtain ⟨r, -, hroot⟩ := sqrt_ofReal_of_neg hstorable (Nat.zero_lt_of_lt hlt)
    rw [if_neg (Nat.not_le.2 hlt)] at hroot
    exact ⟨r, hroot⟩
  · exact sqrt_re_of_overflow (zero_atMost_finite.1 (zero_atMost_of_clear hstorable))
      (by decide +kernel)
  · have him := (hclaim ⟨0, least⟩ (by decide +kernel) (by decide +kernel)).2
    rw [hleast] at him
    cases him

end Complex
end Reckon
