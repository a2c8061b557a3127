import Reckon.Proofs.Signs
import Reckon.Value

/-! The principal square root. Whatever underflows or overflows on the way, both parts of the root
of a finite number are numbers, the real part has a clear sign, and the imaginary part has the sign
of the imaginary part under the root, that of a zero included. -/

set_option autoImplicit false

namespace Reckon
namespace Binary64

theorem compares_zero (related : Int → Int → Bool) (s : Bool) (u : Nat) (h : Storable u) :
    compares related 0 (.finite s u h) = related 0 (signed s u) ∧
      compares related (.finite s u h) 0 = related (signed s u) 0 := by
  have hzero : (0 : Binary64).rank? = some 0 := congrArg rank? ofNat_zero
  rw [compares, compares, hzero]
  exact ⟨rfl, rfl⟩

theorem zero_atMost_finite {s : Bool} {u : Nat} {h : Storable u} :
    atMost 0 (.finite s u h) = true ↔ Reaches 0 (.finite s u h) := by
  rw [atMost, (compares_zero _ s u h).1]
  exact decide_eq_true_iff

theorem zero_below_finite {s : Bool} {u : Nat} {h : Storable u} :
    below 0 (.finite s u h) = true ↔ Reaches 1 (.finite s u h) := by
  rw [below, (compares_zero _ s u h).1]
  exact decide_eq_true_iff

theorem finite_below_zero {s : Bool} {u : Nat} {h : Storable u} :
    below (.finite s u h) 0 = true ↔ ¬ Reaches 0 (.finite s u h) := by
  rw [below, (compares_zero _ s u h).2, decide_eq_true_iff]
  exact Int.not_le.symm

theorem not_reaches_zero {s : Bool} {u : Nat} {h : Storable u} :
    ¬ Reaches 0 (.finite s u h) ↔ s = true ∧ u ≠ 0 := by
  cases s with
  | false => simp [reaches_finite]
  | true => simp [reaches_finite]

end Binary64

namespace Complex
open Binary64

/-- `w` lies where the principal root of `z` does. -/
structure Principal (z w : Complex) : Prop where
  re_number : w.re.isNan = false
  im_number : w.im.isNan = false
  re_clear : w.re.isNegative = false
  im_side : w.im.isNegative = z.im.isNegative
  right : below 0 z.re = true → w.re.isZero = false
  left : below z.re 0 = true → w.im.isZero = false
  /-- The root of a negative number has nothing else. -/
  axis : below z.re 0 = true → z.im.isZero = true → w.re.isZero = true

variable {s t : Bool} {m n : Nat} {hm : Storable m} {hn : Storable n}

theorem principal_of_zero {h : Storable 0} :
    Principal ⟨.finite s 0 h, .finite t n hn⟩ ⟨0, .finite t n hn⟩ := by
  have hzero : (0 : Binary64) = zero false := ofNat_zero
  have hright : ¬ Reaches 1 (.finite s 0 h) := by simp [reaches_finite]
  have hleft : Reaches 0 (.finite s 0 h) := by cases s <;> simp [reaches_finite]
  refine ⟨by rw [hzero]; rfl, rfl, by rw [hzero]; rfl, rfl, fun hbelow => ?_, fun hbelow => ?_,
    fun hbelow => ?_⟩
  · exact absurd (zero_below_finite.1 hbelow) hright
  · exact absurd hleft (finite_below_zero.1 hbelow)
  · exact absurd hleft (finite_below_zero.1 hbelow)

/-- The root when the real part is not below zero. If the larger part of the root underflows, the
smaller one is infinite, since it is then the imaginary part that does not vanish. -/
theorem principal_of_reaches (hre : Reaches 0 (.finite s m hm)) (hne : m ≠ 0 ∨ n ≠ 0) :
    let z : Complex := ⟨.finite s m hm, .finite t n hn⟩
    let root := (midpoint (hypot z.re z.im) z.re).sqrt
    Principal z ⟨root, z.im / (2 * root)⟩ := by
  intro z root
  have hr : AtLeast 1 (hypot z.re z.im) := atLeast_hypot hne
  have hroot : AtLeast 0 root := (hr.midpoint hre (by omega)).sqrt (by omega)
  have hpos : Reaches 1 z.re → AtLeast 1 root := fun hone =>
    (hr.midpoint hone (by omega)).sqrt (by omega)
  have hquot : (z.im / (2 * root)).isNan = false ∧ (z.im / (2 * root)).isNegative = t := by
    by_cases hn0 : n = 0
    · have hone : Reaches 1 z.re := by
        rcases reaches_finite.1 hre with ⟨hs, -⟩ | ⟨-, -, hm0⟩
        · exact reaches_finite.2 (.inl ⟨hs, by omega⟩)
        · omega
      exact ((hpos hone).double (by omega)).div (.inr (by omega))
    · exact (hroot.double (by omega)).div (.inl hn0)
  have hleft : ¬ below z.re 0 = true := fun hbelow => finite_below_zero.1 hbelow hre
  exact ⟨hroot.isNan, hquot.1, hroot.clear, hquot.2,
    fun hbelow => (hpos (zero_below_finite.1 hbelow)).isZero,
    fun hbelow => absurd hbelow hleft, fun hbelow => absurd hbelow hleft⟩

theorem principal_of_not_reaches (hre : ¬ Reaches 0 (.finite s m hm)) :
    let z : Complex := ⟨.finite s m hm, .finite t n hn⟩
    let root := ((hypot z.re z.im - z.re) / 2).sqrt
    Principal z ⟨z.im.abs / (2 * root), root.copySign z.im⟩ := by
  intro z root
  obtain ⟨hs, hm0⟩ := not_reaches_zero.1 hre
  have hneg : Reaches 1 (-z.re) := reaches_finite.2 (.inl ⟨by rw [hs]; rfl, by omega⟩)
  have hsum : AtLeast (2 * 1) (hypot z.re z.im + -z.re) :=
    (atLeast_hypot (.inl hm0)).add hneg (by omega) (by omega)
  have hroot : AtLeast 1 root := (hsum.half (by omega)).sqrt (by omega)
  have hdouble : AtLeast 1 (2 * root) := hroot.double (by omega)
  obtain ⟨hnumber, hclear⟩ : (z.im.abs / (2 * root)).isNan = false ∧
      (z.im.abs / (2 * root)).isNegative = false := hdouble.div (.inr (by omega))
  obtain ⟨hside, hsign, hzero⟩ := copySign_of_isNan hroot.isNan z.im
  refine ⟨hnumber, hside, hclear, hsign, fun hbelow => ?_, fun _ => hzero.trans hroot.isZero,
    fun _ him => ?_⟩
  · exact absurd ((zero_below_finite.1 hbelow).mono (by omega)) hre
  · obtain rfl : n = 0 := eq_of_beq him
    exact hdouble.zero_div

/-- The square root of a finite number is the principal one, as far as signs tell: no part of it is
nan, its real part has a clear sign, and its imaginary part the sign of the imaginary part under the
root. -/
theorem sqrt_principal {z : Complex} (hre : z.re.isFinite = true) (him : z.im.isFinite = true) :
    Principal z z.sqrt := by
  obtain ⟨re, im⟩ := z
  cases re with
  | nan => cases hre
  | infinite s => cases hre
  | finite s m hm =>
    cases im with
    | nan => cases him
    | infinite t => cases him
    | finite t n hn =>
      rw [Complex.sqrt]
      split
      · rename_i hzero
        obtain ⟨hm0, -⟩ := Bool.and_eq_true_iff.1 hzero
        obtain rfl : m = 0 := eq_of_beq hm0
        exact principal_of_zero
      · rename_i hzero
        have hne : m ≠ 0 ∨ n ≠ 0 := by
          by_cases hm0 : m = 0
          · refine .inr fun hn0 => hzero ?_
            simp [Complex.isZero, Binary64.isZero, hm0, hn0]
          · exact .inl hm0
        split
        · rename_i hat
          exact principal_of_reaches (zero_atMost_finite.1 hat) hne
        · rename_i hat
          exact principal_of_not_reaches fun hreach => hat (zero_atMost_finite.2 hreach)

theorem sqrt_principal_on_both_sides :
    sqrt ⟨-4, 0⟩ = ⟨0, 2⟩ ∧ sqrt ⟨-4, -0⟩ = ⟨0, -2⟩ ∧
      sqrt ⟨0, .finite true 1 (by decide +kernel)⟩ = ⟨0, .infinite true⟩ ∧
      Principal ⟨-4, 0⟩ ⟨0, 2⟩ ∧ Principal ⟨-4, -0⟩ ⟨0, -2⟩ ∧
      Principal ⟨0, .finite true 1 (by decide +kernel)⟩ ⟨0, .infinite true⟩ := by
  have hupper : sqrt ⟨-4, 0⟩ = ⟨0, 2⟩ := by decide +kernel
  have hlower : sqrt ⟨-4, -0⟩ = ⟨0, -2⟩ := by decide +kernel
  have htiny : sqrt ⟨0, .finite true 1 (by decide +kernel)⟩ = ⟨0, .infinite true⟩ := by
    decide +kernel
  refine ⟨hupper, hlower, htiny, ?_, ?_, ?_⟩
  · rw [← hupper]
    exact sqrt_principal (by decide +kernel) (by decide +kernel)
  · rw [← hlower]
    exact sqrt_principal (by decide +kernel) (by decide +kernel)
  · rw [← htiny]
    exact sqrt_principal (by decide +kernel) (by decide +kernel)

end Complex
end Reckon
