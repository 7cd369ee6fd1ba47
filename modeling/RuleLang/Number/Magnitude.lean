/-!
Magnitudes of the double format, counted in units of 2^-1074. A magnitude is a multiple of the
last place of a 53 bit significand and lies below 2^1024. Rounding takes a quotient of naturals
to the nearest such multiple, a half going to the even one, and finds none when the result does
not fit. Main statement: rounding a magnitude gives it back.
-/
namespace RuleLang

/-- The nearest natural number to a quotient; a half goes to the even neighbour. -/
def halfEven (a b : Nat) : Nat :=
  if 2 * (a % b) < b then a / b
  else if b < 2 * (a % b) then a / b + 1
  else a / b + a / b % 2

theorem halfEven_le (a b : Nat) : halfEven a b ≤ a / b + 1 := by
  unfold halfEven
  split
  · omega
  · split <;> omega

theorem halfEven_scale {k : Nat} (hk : 0 < k) (a b : Nat) :
    halfEven (k * a) (k * b) = halfEven a b := by
  have h1 : (2 * (k * a % (k * b)) < k * b) ↔ 2 * (a % b) < b := by
    rw [Nat.mul_mod_mul_left, Nat.mul_left_comm, Nat.mul_lt_mul_left hk]
  have h2 : (k * b < 2 * (k * a % (k * b))) ↔ b < 2 * (a % b) := by
    rw [Nat.mul_mod_mul_left, Nat.mul_left_comm, Nat.mul_lt_mul_left hk]
  simp only [halfEven, h1, h2, Nat.mul_div_mul_left a b hk]

theorem halfEven_mul {b : Nat} (hb : 0 < b) (k : Nat) : halfEven (k * b) b = k := by
  simp [halfEven, Nat.mul_div_cancel _ hb, hb]

namespace Magnitude

/-- The units that make one. -/
@[irreducible] def unitsOfOne : Nat := Nat.pow 2 1074

@[irreducible] def unitsLimit : Nat := Nat.pow 2 2098

theorem unitsOfOne_pos : 0 < unitsOfOne := by decide +kernel

def lastPlace (units : Nat) : Nat := Nat.pow 2 (units.log2 - 52)

theorem lastPlace_pos (units : Nat) : 0 < lastPlace units := Nat.pow_pos (by decide)

def Representable (units : Nat) : Prop :=
  units < unitsLimit ∧ lastPlace units ∣ units

instance (units : Nat) : Decidable (Representable units) :=
  inferInstanceAs (Decidable (_ ∧ _))

end Magnitude

structure Magnitude where
  units : Nat
  representable : Magnitude.Representable units
  deriving DecidableEq

namespace Magnitude

theorem ext_units {a b : Magnitude} (h : a.units = b.units) : a = b := by
  cases a; cases b; cases h; rfl

def zero : Magnitude := ⟨0, by decide +kernel⟩
def one : Magnitude := ⟨unitsOfOne, by decide +kernel⟩

theorem lastPlace_dvd {m e : Nat} (hm : m ≤ Nat.pow 2 53) :
    lastPlace (m * Nat.pow 2 e) ∣ m * Nat.pow 2 e := by
  simp only [lastPlace, Nat.pow_eq] at hm ⊢
  rcases Nat.eq_zero_or_pos m with rfl | hpos
  · simp
  have hpow : 0 < 2 ^ e := Nat.pow_pos (by decide)
  have hne : m * 2 ^ e ≠ 0 := Nat.ne_of_gt (Nat.mul_pos hpos hpow)
  rcases Nat.lt_or_eq_of_le hm with hlt | rfl
  · have hlog : (m * 2 ^ e).log2 < 53 + e := by
      rw [Nat.log2_lt hne, Nat.pow_add]
      exact Nat.mul_lt_mul_of_pos_right hlt hpow
    exact Nat.dvd_mul_left_of_dvd (Nat.pow_dvd_pow 2 (by omega)) m
  · have hlog : (2 ^ 53 * 2 ^ e).log2 < 54 + e := by
      rw [Nat.log2_lt hne, ← Nat.pow_add]
      exact Nat.pow_lt_pow_right (by decide) (by omega)
    rw [← Nat.pow_add] at hlog ⊢
    exact Nat.pow_dvd_pow 2 (by omega)

def roundUnits (numerator denominator : Nat) : Nat :=
  let scaled := numerator * unitsOfOne
  let place := lastPlace (scaled / denominator)
  halfEven scaled (denominator * place) * place

theorem lt_places (n : Nat) : n < Nat.pow 2 53 * lastPlace n := by
  have hn : n < 2 ^ (n.log2 + 1) := Nat.lt_log2_self
  simp only [lastPlace, Nat.pow_eq]
  rw [← Nat.pow_add]
  exact Nat.lt_of_lt_of_le hn (Nat.pow_le_pow_right (by decide) (by omega))

theorem lastPlace_roundUnits_dvd (a b : Nat) : lastPlace (roundUnits a b) ∣ roundUnits a b := by
  refine lastPlace_dvd (Nat.le_trans (halfEven_le _ _) ?_)
  rw [← Nat.div_div_eq_div_mul]
  generalize a * unitsOfOne / b = n
  exact Nat.div_lt_of_lt_mul (by rw [Nat.mul_comm]; exact lt_places n)

/-- The magnitude nearest to a quotient, if there is one below 2^1024. -/
def round? (numerator denominator : Nat) : Option Magnitude :=
  if h : roundUnits numerator denominator < unitsLimit then
    some ⟨roundUnits numerator denominator, h, lastPlace_roundUnits_dvd _ _⟩
  else none

theorem roundUnits_units (m : Magnitude) {k : Nat} (hk : 0 < k) :
    roundUnits (m.units * k) (unitsOfOne * k) = m.units := by
  obtain ⟨n, hn, c, hc⟩ := m
  have hpos : 0 < unitsOfOne * k := Nat.mul_pos unitsOfOne_pos hk
  have hswap : n * k * unitsOfOne = unitsOfOne * k * n := by
    rw [Nat.mul_comm (unitsOfOne * k), Nat.mul_comm unitsOfOne k, Nat.mul_assoc]
  simp only [roundUnits, hswap, Nat.mul_div_cancel_left n hpos, halfEven_scale hpos]
  have hh : halfEven n (lastPlace n) = c := by
    have := halfEven_mul (lastPlace_pos n) c
    rwa [Nat.mul_comm, ← hc] at this
  rw [hh, Nat.mul_comm, ← hc]

theorem round?_units (m : Magnitude) {k : Nat} (hk : 0 < k) :
    round? (m.units * k) (unitsOfOne * k) = some m := by
  have h := roundUnits_units m hk
  simp only [round?, h, m.representable.1, dite_true]

end Magnitude

end RuleLang
