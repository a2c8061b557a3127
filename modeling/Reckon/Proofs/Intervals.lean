import Reckon.Proofs.Signs

/-! Bounds from both sides under the arithmetic operations. Rounding passes no count of units that
53 bits hold, neither down nor up, so an exact result between two such counts stays between them
when it is rounded. Between a count and itself there is nothing but the count, and the bounds then
say that an operation is exact. -/

set_option autoImplicit false

namespace Reckon

def Fits (n : Nat) : Prop := n % 2 ^ lastPlace n = 0

theorem Storable.fits {n : Nat} (h : Storable n) : Fits n := h.1

theorem fits_pow (e : Nat) : Fits (2 ^ e) := by
  have h := @mul_pow_mod_lastPlace 1 e (by omega)
  rw [Nat.one_mul] at h
  exact h

theorem exists_finite {x : Binary64} (h : x.isFinite = true) : ∃ s u hu, x = .finite s u hu := by
  cases x with
  | finite s u hu => exact ⟨s, u, hu, rfl⟩
  | _ => cases h

theorem Fits.exists_eq {n : Nat} (h : Fits n) : ∃ m < 2 ^ 53, n = m * 2 ^ lastPlace n :=
  ⟨n / 2 ^ lastPlace n, div_lastPlace_lt n,
    (Nat.div_mul_cancel (Nat.dvd_of_mod_eq_zero h)).symm⟩

theorem Fits.double {n : Nat} (h : Fits n) : Fits (2 * n) := by
  obtain ⟨m, hm, he⟩ := h.exists_eq
  rw [he, Nat.mul_left_comm, Nat.mul_comm 2, ← Nat.pow_succ]
  exact mul_pow_mod_lastPlace (Nat.le_of_lt hm)

theorem Fits.exists_half {n : Nat} (h : Fits n) (hn : 2 ^ 53 ≤ n) : ∃ k, n = 2 * k ∧ Fits k := by
  obtain ⟨m, hm, he⟩ := h.exists_eq
  cases hplace : lastPlace n with
  | zero =>
    rw [hplace, Nat.pow_zero] at he
    omega
  | succ e =>
    refine ⟨m * 2 ^ e, ?_, mul_pow_mod_lastPlace (Nat.le_of_lt hm)⟩
    rw [he, hplace, Nat.pow_succ, Nat.mul_comm (2 ^ e), Nat.mul_left_comm]

theorem lastPlace_mono {m n : Nat} (h : m ≤ n) : lastPlace m ≤ lastPlace n := by
  by_cases hm : m = 0
  · simp [hm, lastPlace]
  · have hlog : m.log2 ≤ n.log2 :=
      (Nat.le_log2 (by omega)).2 (Nat.le_trans (Nat.log2_self_le hm) h)
    unfold lastPlace
    omega

theorem roundHalfEven_le_of_le {n num den : Nat} (hden : 0 < den) (h : num ≤ n * den) :
    roundHalfEven num den ≤ n := by
  have hround := roundHalfEven_le num den
  by_cases hlt : num < n * den
  · have hquot : num / den < n := (Nat.div_lt_iff_lt_mul hden).2 hlt
    omega
  · obtain rfl : num = n * den := by omega
    exact Nat.le_of_eq (roundHalfEven_mul hden)

/-- Rounding never rises above a count that 53 bits hold. -/
theorem nearest_le {k num den : Nat} (hk : Fits k) (hden : 0 < den) (h : num ≤ k * den) :
    nearest num den ≤ k := by
  have hplace : lastPlace (num / den) ≤ lastPlace k :=
    lastPlace_mono (Nat.div_le_of_le_mul (by rwa [Nat.mul_comm]))
  obtain ⟨j, hj⟩ : 2 ^ lastPlace (num / den) ∣ k :=
    Nat.dvd_trans (Nat.pow_dvd_pow 2 hplace) (Nat.dvd_of_mod_eq_zero hk)
  have hscaled : num ≤ j * (den * 2 ^ lastPlace (num / den)) := by
    calc num ≤ k * den := h
      _ = j * (den * 2 ^ lastPlace (num / den)) := by rw [hj]; ac_rfl
  have hround := roundHalfEven_le_of_le (Nat.mul_pos hden (Nat.two_pow_pos _)) hscaled
  calc nearest num den = roundHalfEven num (den * 2 ^ lastPlace (num / den)) *
        2 ^ lastPlace (num / den) := rfl
    _ ≤ j * 2 ^ lastPlace (num / den) := Nat.mul_le_mul_right _ hround
    _ = k := by rw [hj, Nat.mul_comm]

theorem nearest_eq_zero_iff {num den : Nat} (hden : 0 < den) :
    nearest num den = 0 ↔ 2 * num ≤ den := by
  by_cases hle : den ≤ num
  · have hone : 1 ≤ nearest num den := le_nearest (fits_pow 0) hden (by omega)
    omega
  · have hquot : num / den = 0 := Nat.div_eq_of_lt (by omega)
    have hrem : num % den = num := Nat.mod_eq_of_lt (by omega)
    have hplace : lastPlace 0 = 0 := rfl
    simp only [nearest, hquot, hplace, Nat.pow_zero, Nat.mul_one, roundHalfEven, hrem]
    split
    · omega
    · split <;> omega

namespace Binary64

theorem signed_eq_self_iff {s : Bool} {u : Nat} : signed s u = u ↔ s = false ∨ u = 0 := by
  cases s with
  | false => simp [signed]
  | true =>
    simp only [signed, if_true, Bool.true_eq_false, false_or]
    omega

/-- A finite number of `lo` to `hi` units; both zeros stand at zero. -/
def Between (lo hi : Nat) : Binary64 → Prop
  | finite negative units _ => lo ≤ units ∧ units ≤ hi ∧ signed negative units = units
  | _ => False

theorem Between.cases {lo hi : Nat} {x : Binary64} (h : Between lo hi x) :
    ∃ s u hu, x = .finite s u hu ∧ lo ≤ u ∧ u ≤ hi ∧ signed s u = u := by
  cases x with
  | finite s u hu => exact ⟨s, u, hu, rfl, h⟩
  | _ => exact h.elim

theorem Between.isFinite {lo hi : Nat} {x : Binary64} (h : Between lo hi x) :
    x.isFinite = true := by
  obtain ⟨s, u, hu, rfl, -⟩ := h.cases
  rfl

theorem between_self {s : Bool} {u : Nat} {hu : Storable u} (h : signed s u = u) :
    Between u u (.finite s u hu) :=
  ⟨Nat.le_refl u, Nat.le_refl u, h⟩

theorem Between.eq_finite {u : Nat} {x : Binary64} (h : Between u u x) (hu : Storable u)
    (hpos : 0 < u) : x = .finite false u hu := by
  obtain ⟨s, v, hv, rfl, hlo, hhi, hs⟩ := h.cases
  obtain rfl : u = v := by omega
  obtain rfl : s = false := (signed_eq_self_iff.1 hs).resolve_right (by omega)
  rfl

theorem Between.abs {lo hi : Nat} {x : Binary64} (h : Between lo hi x) : Between lo hi x.abs := by
  obtain ⟨s, u, hu, rfl, hlo, hhi, -⟩ := h.cases
  exact ⟨hlo, hhi, rfl⟩

theorem Between.mono {a b lo hi : Nat} {x : Binary64} (h : Between a b x) (hlo : lo ≤ a)
    (hhi : b ≤ hi) : Between lo hi x := by
  obtain ⟨s, u, hu, rfl, hau, hub, hs⟩ := h.cases
  exact ⟨Nat.le_trans hlo hau, Nat.le_trans hub hhi, hs⟩

theorem signed_nearest {s : Bool} {num den : Nat} (hs : signed s num = num) (hden : 0 < den) :
    signed s (nearest num den) = nearest num den := by
  refine signed_eq_self_iff.2 ((signed_eq_self_iff.1 hs).imp_right fun hzero => ?_)
  exact (nearest_eq_zero_iff hden).2 (by omega)

theorem between_ofRatio {s : Bool} {lo hi num den : Nat} (hs : signed s num = num) (hlo : Fits lo)
    (hhi : Storable hi) (hden : 0 < den) (hle : lo * den ≤ num) (hge : num ≤ hi * den) :
    Between lo hi (ofRatio s num den) := by
  have hup : nearest num den ≤ hi := nearest_le hhi.fits hden hge
  rw [ofRatio, dif_pos (Nat.lt_of_le_of_lt hup hhi.2)]
  exact ⟨le_nearest hlo hden hle, hup, signed_nearest hs hden⟩

theorem between_ofTotal {lo hi total den : Nat} (zeroSign : Bool) (hlo : Fits lo)
    (hhi : Storable hi) (hden : 0 < den) (hle : lo * den ≤ total) (hge : total ≤ hi * den) :
    Between lo hi (ofTotal zeroSign total den) := by
  rw [ofTotal]
  split
  · have hzero : lo * den = 0 := by omega
    have hlo0 : lo = 0 := (Nat.mul_eq_zero.1 hzero).resolve_right (Nat.ne_of_gt hden)
    exact ⟨Nat.le_of_eq hlo0, Nat.zero_le hi, signed_eq_self_iff.2 (.inr rfl)⟩
  · rw [decide_eq_false (by omega)]
    exact between_ofRatio rfl hlo hhi hden hle hge

theorem Between.add {a b c d lo hi : Nat} {x y : Binary64} (hx : Between a b x) (hy : Between c d y)
    (hlo : Fits lo) (hhi : Storable hi) (hle : lo ≤ a + c) (hge : b + d ≤ hi) :
    Between lo hi (x + y) := by
  obtain ⟨s, u, hu, rfl, hau, hub, hs⟩ := hx.cases
  obtain ⟨t, v, hv, rfl, hcv, hvd, ht⟩ := hy.cases
  show Between lo hi (ofTotal (s && t) (signed s u + signed t v) 1)
  rw [hs, ht, ← Int.natCast_add]
  exact between_ofTotal _ hlo hhi Nat.one_pos (by omega) (by omega)

theorem Between.half {a b lo hi : Nat} {x : Binary64} (hx : Between a b x) (hlo : Fits lo)
    (hhi : Storable hi) (hle : 2 * lo ≤ a) (hge : b ≤ 2 * hi) : Between lo hi (x / 2) := by
  obtain ⟨s, u, hu, rfl, hau, hub, hs⟩ := hx.cases
  rw [finite_div_two]
  exact between_ofRatio hs hlo hhi (by omega) (by omega) (by omega)

theorem Between.double {a b lo hi : Nat} {x : Binary64} (hx : Between a b x) (hlo : Fits lo)
    (hhi : Storable hi) (hle : lo ≤ 2 * a) (hge : 2 * b ≤ hi) : Between lo hi (2 * x) := by
  obtain ⟨s, u, hu, rfl, hau, hub, hs⟩ := hx.cases
  have hdouble : signed s (2 * u) = (2 * u : Nat) :=
    signed_eq_self_iff.2 ((signed_eq_self_iff.1 hs).imp_right fun hzero => by omega)
  rw [two_mul_finite]
  exact between_ofRatio hdouble hlo hhi Nat.one_pos (by omega) (by omega)

theorem Between.div {a b hi n : Nat} {s : Bool} {hn : Storable n} {y : Binary64}
    (hy : Between a b y) (hpos : 0 < a) (hhi : Storable hi) (hge : n * unitsPerOne ≤ hi * a) :
    Between 0 hi (Binary64.finite s n hn / y).abs := by
  obtain ⟨t, v, hv, rfl, hav, -, ht⟩ := hy.cases
  have hv0 : 0 < v := Nat.lt_of_lt_of_le hpos hav
  obtain rfl : t = false := (signed_eq_self_iff.1 ht).resolve_right (Nat.ne_of_gt hv0)
  have hup : nearest (n * unitsPerOne) v ≤ hi :=
    nearest_le hhi.fits hv0 (Nat.le_trans hge (Nat.mul_le_mul_left hi hav))
  rw [finite_div_finite, if_neg (Nat.ne_of_gt hv0), ofRatio,
    dif_pos (Nat.lt_of_le_of_lt hup hhi.2)]
  exact ⟨Nat.zero_le _, hup, rfl⟩

/-- What is rounded for a root stands to four times a count as the number does to its square. -/
theorem exists_ofRoot (n : Nat) :
    ∃ num, ofRoot n = ofRatio false num 4 ∧ (∀ k, k * k ≤ n → k * 4 ≤ num) ∧
      ∀ k, n ≤ k * k → num ≤ k * 4 := by
  have hfloor := floorRoot_mul_self_le (4 * n)
  have hsucc := lt_succ_floorRoot_mul_self (4 * n)
  have hsquare (k : Nat) : 2 * k * (2 * k) = 4 * (k * k) := Nat.mul_mul_mul_comm 2 k 2 k
  refine ⟨_, rfl, fun k hk => ?_, fun k hk => ?_⟩
  · have hlow : 2 * k < floorRoot (4 * n) + 1 := by
      refine Nat.mul_self_lt_mul_self_iff.1 ?_
      rw [hsquare]
      omega
    split <;> omega
  · have hhigh : floorRoot (4 * n) ≤ 2 * k := by
      refine Nat.mul_self_le_mul_self_iff.1 ?_
      rw [hsquare]
      omega
    split
    · omega
    · rename_i hne
      have hend : floorRoot (4 * n) ≠ 2 * k := by
        intro heq
        rw [heq, hsquare] at hfloor hne
        omega
      omega

theorem between_ofRoot {n lo hi : Nat} (hlo : Fits lo) (hhi : Storable hi) (hle : lo * lo ≤ n)
    (hge : n ≤ hi * hi) : Between lo hi (ofRoot n) := by
  obtain ⟨num, hroot, hlow, hhigh⟩ := exists_ofRoot n
  rw [hroot]
  exact between_ofRatio rfl hlo hhi (by omega) (hlow lo hle) (hhigh hi hge)

theorem unitsPerOne_eq : unitsPerOne = 2 ^ 1074 := by
  decide +kernel

@[irreducible] def rootLimit : Nat := 2 ^ 512 * unitsPerOne

theorem storable_rootLimit : Storable rootLimit := by
  decide +kernel

theorem unitLimit_mul_unitsPerOne : unitLimit * unitsPerOne = rootLimit * rootLimit := by
  decide +kernel

theorem Between.sqrt {a b lo : Nat} {x : Binary64} (hx : Between a b x) (hlo : Fits lo)
    (hle : lo * lo ≤ a * unitsPerOne) : Between lo rootLimit x.sqrt := by
  obtain ⟨s, u, hu, rfl, hau, -, hs⟩ := hx.cases
  rw [Binary64.sqrt]
  by_cases hzero : u = 0
  · rw [if_pos hzero]
    subst hzero
    obtain rfl : a = 0 := Nat.le_zero.1 hau
    obtain rfl : lo = 0 := Nat.le_zero.1 (Nat.mul_self_le_mul_self_iff.1 (by simpa using hle))
    exact ⟨Nat.le_refl 0, Nat.zero_le _, hs⟩
  · obtain rfl : s = false := (signed_eq_self_iff.1 hs).resolve_right hzero
    rw [if_neg hzero, if_neg Bool.false_ne_true]
    refine between_ofRoot hlo storable_rootLimit ?_ ?_
    · exact Nat.le_trans hle (Nat.mul_le_mul_right _ hau)
    · rw [← unitLimit_mul_unitsPerOne]
      exact Nat.mul_le_mul_right _ (Nat.le_of_lt hu.2)

@[irreducible] def halfLargestUnits : Nat := fieldUnits 2045 (2 ^ 52 - 1)

theorem storable_halfLargestUnits : Storable halfLargestUnits := by
  unfold halfLargestUnits
  exact storable_fieldUnits (by omega) (by omega)

theorem le_halfLargestUnits : 2 ^ 53 ≤ halfLargestUnits := by
  decide +kernel

theorem storable_iff_of_fits {n : Nat} (h : Fits n) : Storable n ↔ n ≤ 2 * halfLargestUnits := by
  have hlargest : 2 * halfLargestUnits = (2 ^ 53 - 1) * 2 ^ 2045 := by decide +kernel
  have hlimit : unitLimit = 2 ^ (53 + 2045) := by decide +kernel
  generalize 2045 = e at hlargest hlimit
  constructor
  · intro hn
    obtain ⟨m, hm, he⟩ := h.exists_eq
    have hplace : lastPlace n ≤ e := lastPlace_le (by rw [← hlimit]; exact hn.2)
    rw [he, hlargest]
    exact Nat.mul_le_mul (Nat.le_pred_of_lt hm) (Nat.pow_le_pow_right Nat.two_pos hplace)
  · intro hle
    refine ⟨h, Nat.lt_of_le_of_lt hle ?_⟩
    rw [hlargest, hlimit, Nat.pow_add]
    exact Nat.mul_lt_mul_of_pos_right (by decide) (Nat.two_pow_pos e)

theorem between_ofRatio_of_isFinite {s : Bool} {lo num den : Nat} (hs : signed s num = num)
    (hlo : Fits lo) (hden : 0 < den) (hle : lo * den ≤ num)
    (h : (ofRatio s num den).isFinite = true) :
    Between lo (2 * halfLargestUnits) (ofRatio s num den) := by
  by_cases hlimit : nearest num den < unitLimit
  · have hnearest : Storable (nearest num den) := ⟨nearest_mod_lastPlace num den, hlimit⟩
    rw [ofRatio, dif_pos hlimit]
    exact ⟨le_nearest hlo hden hle, (storable_iff_of_fits hnearest.fits).1 hnearest,
      signed_nearest hs hden⟩
  · rw [ofRatio, dif_neg hlimit] at h
    cases h

theorem empty_fraction_lt : 0 < 2 ^ 52 := by omega

def power (exponent : Nat) (h : exponent < 2047) : Binary64 :=
  ofFields exponent 0 h empty_fraction_lt

theorem atMost_finite {s t : Bool} {u v : Nat} {hu : Storable u} {hv : Storable v} :
    atMost (.finite s u hu) (.finite t v hv) = true ↔ signed s u ≤ signed t v :=
  decide_eq_true_iff

theorem halfLargest_eq :
    halfLargest = .finite false halfLargestUnits storable_halfLargestUnits := by
  have hunits : fieldUnits 2045 (2 ^ 52 - 1) = halfLargestUnits := by decide +kernel
  exact (Binary64.finite.injEq ..).mpr ⟨rfl, hunits⟩

theorem abs_atMost_halfLargest {s : Bool} {u : Nat} {hu : Storable u} :
    (Binary64.finite s u hu).abs.atMost halfLargest = true ↔ u ≤ halfLargestUnits := by
  rw [halfLargest_eq]
  exact atMost_finite.trans Int.ofNat_le

theorem abs_below_twiceLeastNormal {s : Bool} {u : Nat} {hu : Storable u} :
    (Binary64.finite s u hu).abs.below twiceLeastNormal = true ↔ u < 2 ^ 53 := by
  have hrank : twiceLeastNormal.rank? = some ((2 ^ 53 : Nat) : Int) := by decide
  have hcompare : (Binary64.finite s u hu).abs.below twiceLeastNormal =
      decide ((u : Int) < ((2 ^ 53 : Nat) : Int)) := by
    rw [below, compares, hrank]
    rfl
  rw [hcompare, decide_eq_true_iff, Int.ofNat_lt]

theorem exists_between_half {s : Bool} {u : Nat} (hu : Storable u) (hs : signed s u = u)
    (hle : 2 ^ 53 ≤ u) : ∃ k, u = 2 * k ∧ Between k k (.finite s u hu / 2) := by
  obtain ⟨k, rfl, hk⟩ := hu.fits.exists_half hle
  have hks : Storable k := ⟨hk, Nat.lt_of_le_of_lt (by omega) hu.2⟩
  exact ⟨k, rfl, (between_self hs).half hk hks (Nat.le_refl _) (Nat.le_refl _)⟩

section Midpoint
variable {s t : Bool} {u v : Nat} {hu : Storable u} {hv : Storable v}

theorem midpoint_of_le (hus : u ≤ halfLargestUnits) (hvs : v ≤ halfLargestUnits) :
    midpoint (.finite s u hu) (.finite t v hv) = (.finite s u hu + .finite t v hv) / 2 := by
  have hboth : ((Binary64.finite s u hu).abs.atMost halfLargest &&
      (Binary64.finite t v hv).abs.atMost halfLargest) = true :=
    Bool.and_eq_true_iff.2 ⟨abs_atMost_halfLargest.2 hus, abs_atMost_halfLargest.2 hvs⟩
  rw [midpoint, if_pos hboth]

theorem midpoint_of_lt (hus : halfLargestUnits < u) :
    midpoint (.finite s u hu) (.finite t v hv) =
      .finite s u hu / 2 + if v < 2 ^ 53 then .finite t v hv else .finite t v hv / 2 := by
  have hhalf := le_halfLargestUnits
  have hboth : ¬ ((Binary64.finite s u hu).abs.atMost halfLargest &&
      (Binary64.finite t v hv).abs.atMost halfLargest) = true := fun h =>
    Nat.not_le.2 hus (abs_atMost_halfLargest.1 (Bool.and_eq_true_iff.1 h).1)
  have hbelow : ¬ (Binary64.finite s u hu).abs.below twiceLeastNormal = true := fun h => by
    have := abs_below_twiceLeastNormal.1 h
    omega
  rw [midpoint, if_neg hboth, if_neg hbelow]
  simp only [abs_below_twiceLeastNormal]
  exact (apply_ite _ _ _ _).symm

theorem midpoint_self (hpos : 0 < u) :
    midpoint (.finite false u hu) (.finite false u hu) = .finite false u hu := by
  have hself : Between u u (.finite false u hu) := between_self rfl
  have hmiddle := le_halfLargestUnits
  rcases Nat.lt_or_ge halfLargestUnits u with hus | hus
  · obtain ⟨k, hk, hhalf⟩ := exists_between_half hu (s := false) rfl (by omega)
    rw [midpoint_of_lt hus, if_neg (by omega)]
    exact (hhalf.add hhalf hu.fits hu (by omega) (by omega)).eq_finite hu hpos
  · have hdouble : Storable (2 * u) := (storable_iff_of_fits hu.fits.double).2 (by omega)
    rw [midpoint_of_le hus hus]
    exact ((hself.add hself hdouble.fits hdouble (by omega) (by omega)).half hu.fits hu
      (Nat.le_refl _) (Nat.le_refl _)).eq_finite hu hpos

end Midpoint

/-- The number halfway is finite, and not below a count that the exact one reaches, if the larger of
the two numbers comes first. -/
theorem between_midpoint {s t : Bool} {u v lo : Nat} (hu : Storable u) (hv : Storable v)
    (hs : signed s u = u) (ht : signed t v = v) (hvu : v ≤ u) (hlo : Fits lo)
    (hle : 2 * lo ≤ u + v) :
    Between lo (2 * halfLargestUnits) (midpoint (.finite s u hu) (.finite t v hv)) := by
  have hx : Between u u (.finite s u hu) := between_self hs
  have hy : Between v v (.finite t v hv) := between_self ht
  have hlargest : Storable (2 * halfLargestUnits) :=
    (storable_iff_of_fits storable_halfLargestUnits.fits.double).2 (Nat.le_refl _)
  have hmax := (storable_iff_of_fits hu.fits).1 hu
  have hmiddle := le_halfLargestUnits
  rcases Nat.lt_or_ge halfLargestUnits u with hus | hus
  · obtain ⟨k, hk, hxhalf⟩ := exists_between_half hu hs (by omega)
    rw [midpoint_of_lt hus]
    split
    · exact hxhalf.add hy hlo hlargest (by omega) (by omega)
    · obtain ⟨l, hl, hyhalf⟩ := exists_between_half hv ht (by omega)
      exact hxhalf.add hyhalf hlo hlargest (by omega) (by omega)
  · rw [midpoint_of_le hus (by omega)]
    exact (hx.add hy hlo.double hlargest hle (by omega)).half hlo hlargest (by omega) (by omega)

end Binary64
end Reckon
