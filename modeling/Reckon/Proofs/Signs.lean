import Reckon.Binary64.Arith
import Reckon.Proofs.Literal

/-! Signs and lower bounds under the arithmetic operations. Rounding never passes a count of units
that 53 bits can hold, so a result that is large enough before it is rounded is so afterwards, and
has the sign that goes with it. -/

set_option autoImplicit false

namespace Reckon

theorem le_cut {k n : Nat} (hk : k % 2 ^ lastPlace k = 0) (h : k ≤ n) :
    k ≤ n / 2 ^ lastPlace n * 2 ^ lastPlace n := by
  by_cases hzero : k = 0
  · omega
  have hlog : k.log2 ≤ n.log2 :=
    (Nat.le_log2 (by omega)).2 (Nat.le_trans (Nat.log2_self_le hzero) h)
  by_cases hplace : lastPlace k = lastPlace n
  · rw [hplace] at hk
    have hdiv := Nat.div_mul_cancel (Nat.dvd_of_mod_eq_zero hk)
    have hquot : k / 2 ^ lastPlace n ≤ n / 2 ^ lastPlace n := Nat.div_le_div_right h
    have hle := Nat.mul_le_mul_right (2 ^ lastPlace n) hquot
    omega
  · -- The larger count has a higher leading bit, and that bit is kept.
    have hbits : k.log2 < n.log2 ∧ 52 + lastPlace n = n.log2 := by
      unfold lastPlace at hplace ⊢
      omega
    have hlt : k < 2 ^ n.log2 := (Nat.log2_lt hzero).1 hbits.1
    have hlead : 2 ^ n.log2 ≤ n := Nat.log2_self_le (by omega)
    rw [← hbits.2, Nat.pow_add] at hlt hlead
    have hquot : 2 ^ 52 ≤ n / 2 ^ lastPlace n :=
      (Nat.le_div_iff_mul_le (Nat.two_pow_pos _)).2 hlead
    have hle := Nat.mul_le_mul_right (2 ^ lastPlace n) hquot
    omega

/-- Rounding never falls below a count that 53 bits can hold. -/
theorem le_nearest {k num den : Nat} (hk : k % 2 ^ lastPlace k = 0) (hden : 0 < den)
    (h : k * den ≤ num) : k ≤ nearest num den := by
  have hquot : k ≤ num / den := (Nat.le_div_iff_mul_le hden).2 h
  have hround := le_roundHalfEven num (den * 2 ^ lastPlace (num / den))
  rw [← Nat.div_div_eq_div_mul] at hround
  exact Nat.le_trans (le_cut hk hquot) (Nat.mul_le_mul_right _ hround)

namespace Binary64

theorem ofRatio_zero (negative : Bool) (den : Nat) : ofRatio negative 0 den = zero negative := by
  have hzero : nearest 0 den = 0 := by simp [nearest, roundHalfEven]
  simp only [ofRatio, hzero, storable_zero.2, dite_true]
  rfl

/-- Stands at `n` units or above; both zeros stand at zero. -/
def Reaches (n : Nat) : Binary64 → Prop
  | nan => False
  | infinite negative => negative = false
  | finite negative units _ => (n : Int) ≤ signed negative units

theorem reaches_finite {n units : Nat} {negative : Bool} {h : Storable units} :
    Reaches n (.finite negative units h) ↔
      negative = false ∧ n ≤ units ∨ negative = true ∧ n = 0 ∧ units = 0 := by
  cases negative with
  | false => simp [Reaches, signed]
  | true =>
    simp only [Reaches, signed, if_true, Bool.true_eq_false, false_and, true_and, false_or]
    omega

theorem Reaches.mono {m n : Nat} {x : Binary64} (h : Reaches n x) (hle : m ≤ n) : Reaches m x := by
  cases x with
  | nan => exact h
  | infinite negative => exact h
  | finite negative units hs =>
    have hn : (n : Int) ≤ signed negative units := h
    show (m : Int) ≤ signed negative units
    omega

/-- At `n` units or above, and with a clear sign. -/
structure AtLeast (n : Nat) (x : Binary64) : Prop where
  reaches : Reaches n x
  clear : x.isNegative = false

theorem AtLeast.mono {m n : Nat} {x : Binary64} (h : AtLeast n x) (hle : m ≤ n) : AtLeast m x :=
  ⟨h.reaches.mono hle, h.clear⟩

theorem atLeast_infinite (n : Nat) : AtLeast n (.infinite false) := ⟨rfl, rfl⟩

theorem atLeast_finite {n units : Nat} {h : Storable units} :
    AtLeast n (.finite false units h) ↔ n ≤ units := by
  constructor
  · intro hat
    simpa [reaches_finite] using hat.reaches
  · intro hle
    exact ⟨reaches_finite.2 (.inl ⟨rfl, hle⟩), rfl⟩

theorem AtLeast.cases {n : Nat} {x : Binary64} (h : AtLeast n x) :
    x = .infinite false ∨ ∃ units hs, x = .finite false units hs ∧ n ≤ units := by
  cases x with
  | nan => exact h.reaches.elim
  | infinite negative =>
    obtain rfl : negative = false := h.clear
    exact .inl rfl
  | finite negative units hs =>
    obtain rfl : negative = false := h.clear
    exact .inr ⟨units, hs, rfl, atLeast_finite.1 h⟩

theorem AtLeast.isNan {n : Nat} {x : Binary64} (h : AtLeast n x) : x.isNan = false := by
  obtain rfl | ⟨units, hs, rfl, -⟩ := h.cases
  · rfl
  · rfl

theorem AtLeast.isZero {x : Binary64} (h : AtLeast 1 x) : x.isZero = false := by
  obtain rfl | ⟨units, hs, rfl, hle⟩ := h.cases
  · rfl
  · exact beq_eq_false_iff_ne.2 (by omega)

theorem atLeast_ofRatio {k num den : Nat} (hk : k ≤ 2 ^ 53) (hden : 0 < den) (h : k * den ≤ num) :
    AtLeast k (ofRatio false num den) := by
  have hbits := @mul_pow_mod_lastPlace k 0 hk
  rw [Nat.pow_zero, Nat.mul_one] at hbits
  unfold ofRatio
  split
  · exact atLeast_finite.2 (le_nearest hbits hden h)
  · exact atLeast_infinite k

theorem AtLeast.add {k m n : Nat} {x y : Binary64} (hx : AtLeast m x) (hy : Reaches n y)
    (hk : k ≤ 2 ^ 53) (hle : k ≤ m + n) : AtLeast k (x + y) := by
  cases y with
  | nan => exact hy.elim
  | infinite t =>
    obtain rfl : t = false := hy
    obtain rfl | ⟨a, ha, rfl, -⟩ := hx.cases
    · exact atLeast_infinite k
    · exact atLeast_infinite k
  | finite t b hb =>
    obtain rfl | ⟨a, ha, rfl, -⟩ := hx.cases
    · exact atLeast_infinite k
    · have hm : (m : Int) ≤ signed false a := hx.reaches
      have hn : (n : Int) ≤ signed t b := hy
      show AtLeast k (ofTotal (false && t) (signed false a + signed t b) 1)
      unfold ofTotal
      split
      · exact atLeast_finite.2 (by omega)
      · rw [decide_eq_false (by omega)]
        exact atLeast_ofRatio hk Nat.one_pos (by omega)

theorem storable_two : Storable (2 * unitsPerOne) := by decide +kernel

theorem two_eq : (2 : Binary64) = .finite false (2 * unitsPerOne) storable_two :=
  ofUnits_of_storable false storable_two

theorem finite_div_finite (s : Bool) {m n : Nat} (hm : Storable m) (hn : Storable n) :
    Binary64.finite s m hm / .finite false n hn =
      if n = 0 then if m = 0 then nan else .infinite s else ofRatio s (m * unitsPerOne) n := by
  show Binary64.div _ _ = _
  rw [Binary64.div, Bool.xor_false]

theorem finite_div_two (s : Bool) (u : Nat) (h : Storable u) :
    Binary64.finite s u h / 2 = ofRatio s u 2 := by
  have hpos := unitsPerOne_pos
  rw [two_eq, finite_div_finite, if_neg (by omega), ofRatio_mul_right s u 2 hpos]

theorem two_mul_finite (s : Bool) (u : Nat) (h : Storable u) :
    2 * Binary64.finite s u h = ofRatio s (2 * u) 1 := by
  have hmul : Binary64.finite false (2 * unitsPerOne) storable_two * .finite s u h =
      ofRatio (false ^^ s) (2 * unitsPerOne * u) unitsPerOne := rfl
  rw [two_eq, hmul, Bool.false_xor, Nat.mul_right_comm,
    ← ofRatio_mul_right s (2 * u) 1 unitsPerOne_pos, Nat.one_mul]

theorem AtLeast.half {k : Nat} {x : Binary64} (h : AtLeast (2 * k) x) (hk : k ≤ 2 ^ 53) :
    AtLeast k (x / 2) := by
  obtain rfl | ⟨units, hs, rfl, hle⟩ := h.cases
  · rw [two_eq]
    exact atLeast_infinite k
  · rw [finite_div_two]
    exact atLeast_ofRatio hk (by omega) (by omega)

theorem Reaches.half {x : Binary64} (h : Reaches 0 x) : Reaches 0 (x / 2) := by
  cases hx : x.isNegative with
  | false => exact (AtLeast.half (k := 0) ⟨h, hx⟩ (by omega)).reaches
  | true =>
    cases x with
    | nan => exact h.elim
    | infinite s =>
      obtain rfl : s = false := h
      cases hx
    | finite s u hu =>
      obtain rfl : s = true := hx
      obtain rfl : u = 0 := by simpa [reaches_finite] using h
      rw [finite_div_two, ofRatio_zero]
      exact reaches_finite.2 (by simp)

theorem AtLeast.double {k : Nat} {x : Binary64} (h : AtLeast k x) (hk : k ≤ 2 ^ 53) :
    AtLeast k (2 * x) := by
  obtain rfl | ⟨units, hs, rfl, hle⟩ := h.cases
  · have hpos := unitsPerOne_pos
    have hmul : Binary64.finite false (2 * unitsPerOne) storable_two * .infinite false =
        if 2 * unitsPerOne = 0 then nan else .infinite false := rfl
    rw [two_eq, hmul, if_neg (by omega)]
    exact atLeast_infinite k
  · rw [two_mul_finite]
    exact atLeast_ofRatio hk Nat.one_pos (by omega)

theorem atLeast_ofRoot {n : Nat} (h : 0 < n) : AtLeast 1 (ofRoot n) := by
  have hroot := lt_succ_floorRoot_mul_self (4 * n)
  have htwo : 2 ≤ floorRoot (4 * n) := by
    by_cases hlt : floorRoot (4 * n) ≤ 1
    · have hsquare := Nat.mul_le_mul (Nat.add_le_add_right hlt 1) (Nat.add_le_add_right hlt 1)
      omega
    · omega
  unfold ofRoot
  refine atLeast_ofRatio (by omega) (by omega) ?_
  split <;> omega

theorem AtLeast.sqrt {k : Nat} {x : Binary64} (h : AtLeast k x) (hk : k ≤ 1) :
    AtLeast k x.sqrt := by
  obtain rfl | ⟨units, hs, rfl, hle⟩ := h.cases
  · exact atLeast_infinite k
  · rw [Binary64.sqrt]
    by_cases hzero : units = 0
    · rw [if_pos hzero]
      exact h
    · have hpos : 0 < units * unitsPerOne := Nat.mul_pos (by omega) unitsPerOne_pos
      rw [if_neg hzero, if_neg Bool.false_ne_true]
      exact (atLeast_ofRoot hpos).mono hk

theorem atLeast_hypot {s t : Bool} {m n : Nat} {hm : Storable m} {hn : Storable n}
    (h : m ≠ 0 ∨ n ≠ 0) : AtLeast 1 (hypot (.finite s m hm) (.finite t n hn)) := by
  rw [hypot]
  refine atLeast_ofRoot ?_
  rcases h with h | h
  all_goals
    have hsquare := Nat.mul_pos (Nat.pos_of_ne_zero h) (Nat.pos_of_ne_zero h)
    omega

theorem AtLeast.of_not_below {k : Nat} {x : Binary64} (h : AtLeast k x)
    (hx : ¬ x.abs.below twiceLeastNormal = true) : AtLeast 2 x := by
  obtain rfl | ⟨units, hs, rfl, -⟩ := h.cases
  · exact atLeast_infinite 2
  · have hrank : twiceLeastNormal.rank? = some (2 ^ 53) := by decide
    rw [below, compares, hrank] at hx
    have hle : ¬ (units : Int) < 2 ^ 53 := fun hlt => hx (decide_eq_true hlt)
    exact atLeast_finite.2 (by omega)

/-- The number halfway from a positive one to another reaches what the other does, up to a unit. -/
theorem AtLeast.midpoint {k : Nat} {x y : Binary64} (hx : AtLeast 1 x) (hy : Reaches k y)
    (hk : k ≤ 1) : AtLeast k (Binary64.midpoint x y) := by
  have hyhalf : Reaches 0 (y / 2) := (hy.mono (Nat.zero_le k)).half
  unfold Binary64.midpoint
  split
  · have hsum : AtLeast (2 * k) (x + y) := hx.add hy (by omega) (by omega)
    exact hsum.half (by omega)
  · split
    · exact hx.add hyhalf (by omega) (by omega)
    · rename_i hbelow
      have hxhalf : AtLeast 1 (x / 2) := (hx.of_not_below hbelow).half (by omega)
      split
      · exact hxhalf.add hy (by omega) (by omega)
      · exact hxhalf.add hyhalf (by omega) (by omega)

theorem AtLeast.div {k m : Nat} {s : Bool} {hm : Storable m} {y : Binary64} (hy : AtLeast k y)
    (h : m ≠ 0 ∨ 1 ≤ k) :
    (Binary64.finite s m hm / y).isNan = false ∧ (Binary64.finite s m hm / y).isNegative = s := by
  obtain rfl | ⟨units, hs, rfl, hle⟩ := hy.cases
  · exact ⟨rfl, Bool.xor_false s⟩
  · rw [finite_div_finite]
    split
    · rw [if_neg (by omega)]
      exact ⟨rfl, rfl⟩
    · exact ⟨isNan_ofRatio _ _ _, isNegative_ofRatio _ _ _⟩

theorem AtLeast.zero_div {s : Bool} {y : Binary64} (hy : AtLeast 1 y) :
    (zero s / y).isZero = true := by
  obtain rfl | ⟨units, hs, rfl, hle⟩ := hy.cases
  · rfl
  · rw [zero, finite_div_finite, if_neg (by omega), Nat.zero_mul, ofRatio_zero]
    rfl

theorem copySign_of_isNan {x : Binary64} (h : x.isNan = false) (y : Binary64) :
    (x.copySign y).isNan = false ∧ (x.copySign y).isNegative = y.isNegative ∧
      (x.copySign y).isZero = x.isZero := by
  cases x with
  | nan => cases h
  | _ => exact ⟨rfl, rfl, rfl⟩

end Binary64
end Reckon
