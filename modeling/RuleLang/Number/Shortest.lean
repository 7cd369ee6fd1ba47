import RuleLang.Number.Decimal

/-!
The shortest decimal of a magnitude. Every magnitude is an exact decimal with 1074 places. Its
digits are cut after the first, the second and so on, until one of the two neighbours of the
value on the cut's grid reads back as the same magnitude; of two such neighbours the nearer is
taken, and the even one of two equally near. Main statement: the result reads back.
-/
namespace RuleLang.Magnitude

def exact (m : Magnitude) : Decimal := ⟨m.units * Nat.pow 5 1074, -1074⟩

def readsAs (d : Decimal) (m : Magnitude) : Bool := d.magnitude? = some m

theorem pow_ten_eq {n : Nat} (h : n = 1074) : Nat.pow 10 n = unitsOfOne * Nat.pow 5 1074 := by
  subst h
  decide +kernel

theorem quotient_exact (m : Magnitude) :
    m.exact.quotient = (m.units * Nat.pow 5 1074, unitsOfOne * Nat.pow 5 1074) := by
  have hneg : ¬ (0 : Int) ≤ -1074 := by decide
  have hnat : (-(-1074 : Int)).toNat = 1074 := by decide
  unfold exact Decimal.quotient
  rw [if_neg hneg, pow_ten_eq hnat]

theorem readsAs_exact (m : Magnitude) : readsAs m.exact m := by
  rw [readsAs, Decimal.magnitude?, quotient_exact]
  exact decide_eq_true (round?_units m (by decide +kernel))

/-- Of two candidates the one that passes; if both do, `first` says which. -/
def pick? {α : Type} (ok : α → Bool) (first : Bool) (a b : α) : Option α :=
  match ok a, ok b with
  | true, true => some (if first then a else b)
  | true, false => some a
  | false, true => some b
  | false, false => none

theorem pick?_ok {α : Type} {ok : α → Bool} {first : Bool} {a b c : α}
    (h : pick? ok first a b = some c) : ok c := by
  unfold pick? at h
  cases ha : ok a <;> cases hb : ok b <;> cases first <;> simp_all

/-- The neighbour of the value that reads back once the lowest `places` digits are cut off. -/
def cut? (m : Magnitude) (places : Nat) : Option Decimal :=
  let unit := Nat.pow 10 places
  let q := m.exact.coefficient / unit
  let r := m.exact.coefficient % unit
  pick? (readsAs · m) (2 * r < unit || (2 * r == unit && q % 2 == 0))
    ⟨q, places - 1074⟩ ⟨q + 1, places - 1074⟩

theorem readsAs_cut? {m : Magnitude} {places : Nat} {d : Decimal} (h : m.cut? places = some d) :
    readsAs d m := by
  unfold cut? at h
  dsimp only at h
  have hok := pick?_ok h
  exact hok

/-- How many decimal digits a positive number has, which its binary length tells up to one. -/
def decimalLength (n : Nat) : Nat :=
  let least := (n.log2 + 1) * 30103 / 100000
  if n < Nat.pow 10 least then least else least + 1

def shortest (m : Magnitude) : Decimal :=
  let digits := decimalLength m.exact.coefficient
  ((List.range digits).findSome? fun n => m.cut? (digits - 1 - n)).getD m.exact

theorem readsAs_shortest (m : Magnitude) : readsAs m.shortest m := by
  unfold shortest
  simp only
  generalize (List.range _) = ns
  cases h : ns.findSome? (fun n => m.cut? _) with
  | none => exact readsAs_exact m
  | some d =>
    obtain ⟨n, _, hn⟩ := List.exists_of_findSome?_eq_some h
    exact readsAs_cut? hn

end RuleLang.Magnitude
