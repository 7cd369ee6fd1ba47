import Mathlib.Tactic.Common
import Mathlib.Tactic.Ring
import RuleLang.Json.Write
import RuleLang.Proofs.Progress

/-!
Numerals of documents. A numeral is a sign or none, a whole part without a needless zero, and after
it places and an exponent or not; its value is the decimal that it spells, rounded once. Decimals of
the same value are rounded alike, so that a number that is laid out reads back, whichever way its
point and its exponent were put.
-/
namespace RuleLang

open Alphabet

namespace Magnitude

theorem roundUnits_scale {k : Nat} (hk : 0 < k) (a b : Nat) :
    roundUnits (k * a) (k * b) = roundUnits a b := by
  unfold roundUnits
  dsimp only
  rw [Nat.mul_assoc k a, Nat.mul_div_mul_left _ _ hk, Nat.mul_assoc k b, halfEven_scale hk]

theorem round?_scale {k : Nat} (hk : 0 < k) (a b : Nat) :
    round? (k * a) (k * b) = round? a b := by
  simp only [round?, roundUnits_scale hk]

theorem round?_zero (b : Nat) : round? 0 b = some zero := by
  have h : roundUnits 0 b = 0 := by
    simp [roundUnits, halfEven]
  simp only [round?, h]
  exact dif_pos zero.representable.1

end Magnitude

namespace Decimal

theorem magnitude?_ofNat (c n : Nat) :
    (⟨c, n⟩ : Decimal).magnitude? = Magnitude.round? (c * Nat.pow 10 n) 1 := by
  rw [magnitude?, quotient, if_pos (Int.natCast_nonneg n), Int.toNat_natCast]

theorem magnitude?_neg (c n : Nat) :
    (⟨c, -n⟩ : Decimal).magnitude? = Magnitude.round? c (Nat.pow 10 n) := by
  cases n with
  | zero =>
    rw [show (-((0 : Nat) : Int)) = ((0 : Nat) : Int) by rfl, magnitude?_ofNat]
    exact congrArg (Magnitude.round? · 1) (Nat.mul_one c)
  | succ n => 
    have hneg : ¬ (0 : Int) ≤ -((n + 1 : Nat) : Int) := by omega
    rw [magnitude?, quotient, if_neg hneg, Int.neg_neg, Int.toNat_natCast]

theorem magnitude?_zero {d : Decimal} (h : d.coefficient = 0) : d.magnitude? = some .zero := by
  have hq : d.quotient.1 = 0 := by
    unfold quotient
    split_ifs <;> simp [h]
  rw [magnitude?, hq, Magnitude.round?_zero]

theorem pow_ten_add (m n : Nat) : Nat.pow 10 (m + n) = Nat.pow 10 m * Nat.pow 10 n :=
  Nat.pow_add 10 m n

theorem pow_ten_pos (n : Nat) : 0 < Nat.pow 10 n := Nat.pow_pos (by decide)

theorem magnitude?_shift (c t : Nat) (e : Int) :
    (⟨c * Nat.pow 10 t, e⟩ : Decimal).magnitude? = (⟨c, e + t⟩ : Decimal).magnitude? := by
  obtain ⟨n, rfl | rfl⟩ := e.eq_nat_or_neg
  · rw [← Int.natCast_add, magnitude?_ofNat, magnitude?_ofNat, Nat.add_comm, pow_ten_add,
      Nat.mul_assoc]
  · rw [magnitude?_neg]
    rcases Nat.le_total n t with h | h
    · obtain ⟨k, rfl⟩ := Nat.exists_eq_add_of_le h
      rw [show -(n : Int) + (n + k : Nat) = (k : Nat) by omega, magnitude?_ofNat,
        ← Magnitude.round?_scale (pow_ten_pos n) (c * _) 1, pow_ten_add, Nat.mul_left_comm,
        Nat.mul_one]
    · obtain ⟨k, rfl⟩ := Nat.exists_eq_add_of_le h
      rw [show -((t + k : Nat) : Int) + (t : Nat) = -(k : Nat) by omega, magnitude?_neg,
        ← Magnitude.round?_scale (pow_ten_pos t) c, pow_ten_add, Nat.mul_comm c]

theorem ofDigits_append (a b : List Char) :
    ofDigits (a ++ b) = ofDigits a * Nat.pow 10 b.length + ofDigits b := by
  have hinit (l : List Char) (n : Nat) :
      Nat.ofDigitChars 10 l n = n * Nat.pow 10 l.length + Nat.ofDigitChars 10 l 0 := by
    induction l generalizing n with
    | nil => exact (Nat.mul_one n).symm
    | cons c l ih =>
      rw [Nat.ofDigitChars_cons, Nat.ofDigitChars_cons, ih, ih (10 * 0 + _), List.length_cons,
        pow_ten_add, show Nat.pow 10 1 = 10 from rfl]
      ring
  rw [ofDigits, ofDigits, ofDigits, Nat.ofDigitChars_append, hinit]

theorem ofDigits_zeros (n : Nat) : ofDigits (List.replicate n '0') = 0 := by
  induction n with
  | zero => rfl
  | succ n ih =>
    rw [List.replicate_succ', ofDigits_append, ih, Nat.zero_mul]
    rfl

theorem ofDigits_append_zeros (a : List Char) (n : Nat) :
    ofDigits (a ++ List.replicate n '0') = ofDigits a * Nat.pow 10 n := by
  rw [ofDigits_append, ofDigits_zeros, List.length_replicate, Nat.add_zero]

theorem ofDigits_zeros_append (n : Nat) (a : List Char) :
    ofDigits (List.replicate n '0' ++ a) = ofDigits a := by
  rw [ofDigits_append, ofDigits_zeros, Nat.zero_mul, Nat.zero_add]

end Decimal

theorem isDigit_of_core {c : Char} (h : c.isDigit) : isDigit c := by
  have hc : 48 ≤ c.toNat ∧ c.toNat ≤ 57 := by
    simpa [Char.isDigit, UInt32.le_iff_toNat_le] using h
  obtain ⟨k, hk⟩ := Nat.exists_eq_add_of_le hc.1
  have hlt : k < 10 := by omega
  have hall : ∀ k < 10, isDigit (Char.ofNat (48 + k)) := by decide
  rw [← Char.ofNat_toNat c, hk]
  exact hall k hlt

theorem toDigits_all (n : Nat) : (Nat.toDigits 10 n).all isDigit :=
  List.all_eq_true.2 fun _ hc =>
    isDigit_of_core (Nat.isDigit_of_mem_toDigits (by decide) (by decide) hc)

theorem ofDigits_toDigits (n : Nat) : Decimal.ofDigits (Nat.toDigits 10 n) = n :=
  Nat.ofDigitChars_toDigits (by decide) (by decide)

theorem toDigits_head {n : Nat} (h : 0 < n) : ∃ d ds, Nat.toDigits 10 n = d :: ds ∧ d ≠ '0' := by
  induction n using Nat.strong_induction_on with
  | _ n ih =>
    rcases Nat.lt_or_ge n 10 with hlt | hge
    · have hall : ∀ m < 10, 0 < m → m.digitChar ≠ '0' := by decide
      exact ⟨n.digitChar, [], Nat.toDigits_of_lt_base hlt, hall n hlt h⟩
    · obtain ⟨d, ds, hds, hd⟩ := ih (n / 10) (by omega) (by omega)
      exact ⟨d, ds ++ [_], by rw [Nat.toDigits_of_base_le (by decide) hge, hds]; rfl, hd⟩

namespace Json

def whole? (cs : List Char) : Option (List Char × List Char) :=
  let digits := cs.takeWhile isDigit
  if digits = ['0'] ∨ digits ≠ [] ∧ digits.head? ≠ some '0' then some (digits, cs.dropWhile isDigit)
  else none

def places? : List Char → Option (List Char × List Char)
  | '.' :: cs =>
    if cs.takeWhile isDigit = [] then none
    else some (cs.takeWhile isDigit, cs.dropWhile isDigit)
  | cs => some ([], cs)

def exponent? : List Char → Option Int
  | [] => some 0
  | c :: part => if c = 'e' ∨ c = 'E' then Decimal.ofExponent? part else none

def magnitude? (negative : Bool) (cs : List Char) : Option Number := do
  let (whole, behind) ← whole? cs
  let (places, behind) ← places? behind
  let exponent ← exponent? behind
  return .ofDecimal negative ⟨Decimal.ofDigits (whole ++ places), exponent - places.length⟩

def infinityName : List Char := ['I', 'n', 'f', 'i', 'n', 'i', 't', 'y']

/-- The number that a numeral stands for; the infinities have a name. -/
def number? (cs : List Char) : Option Number :=
  if cs = infinityName then some (.infinite false)
  else if cs = '-' :: infinityName then some (.infinite true)
  else match cs with
  | '-' :: cs => magnitude? true cs
  | cs => magnitude? false cs

def isWordChar (c : Char) : Bool := c.isAlphanum || c = '+' || c = '-' || c = '.'

theorem magnitude?_eq (negative : Bool) {whole places exponent : List Char} {e : Int}
    (hw : whole.all isDigit) (hz : whole = ['0'] ∨ whole ≠ [] ∧ whole.head? ≠ some '0')
    (hp : places.all isDigit) (hne : places ≠ []) (he : exponent? exponent = some e)
    (hstop : ∀ c ∈ exponent.head?, ¬ isDigit c) :
    magnitude? negative (whole ++ '.' :: (places ++ exponent)) =
      some (.ofDecimal negative ⟨Decimal.ofDigits (whole ++ places), e - places.length⟩) := by
  obtain ⟨hw1, hw2⟩ := Lexer.span_run whole hw ('.' :: (places ++ exponent)) (by simp; decide)
  obtain ⟨hp1, hp2⟩ := Lexer.span_run places hp exponent hstop
  rw [magnitude?, whole?, hw1, hw2, if_pos hz]
  simp only [Option.bind_eq_bind, Option.bind_some, places?]
  rw [hp1, hp2, if_neg hne]
  simp only [Option.bind_some, he]
  rfl

theorem magnitude?_pointed (negative : Bool) (whole places : List Char)
    (hw : whole.all isDigit) (hz : whole = ['0'] ∨ whole ≠ [] ∧ whole.head? ≠ some '0')
    (hp : places.all isDigit) (hne : places ≠ []) :
    magnitude? negative (whole ++ '.' :: places) =
      some (.ofDecimal negative ⟨Decimal.ofDigits (whole ++ places), 0 - places.length⟩) := by
  have h := magnitude?_eq negative hw hz hp hne (rfl : exponent? [] = some 0) nofun
  rwa [List.append_nil] at h

theorem magnitude?_whole (negative : Bool) {whole part : List Char} {mark : Char} {e : Int}
    (hw : whole.all isDigit) (hz : whole = ['0'] ∨ whole ≠ [] ∧ whole.head? ≠ some '0')
    (hm : mark = 'e' ∨ mark = 'E') (he : Decimal.ofExponent? part = some e) :
    magnitude? negative (whole ++ mark :: part) =
      some (.ofDecimal negative ⟨Decimal.ofDigits whole, e⟩) := by
  have hstop : ∀ c ∈ (mark :: part).head?, ¬ isDigit c := by
    rcases hm with rfl | rfl <;> simp <;> decide
  obtain ⟨hw1, hw2⟩ := Lexer.span_run whole hw (mark :: part) hstop
  have hp : places? (mark :: part) = some ([], mark :: part) := by
    rcases hm with rfl | rfl <;> rfl
  rw [magnitude?, whole?, hw1, hw2, if_pos hz]
  simp only [Option.bind_eq_bind, Option.bind_some, hp, exponent?, if_pos hm, he]
  simp

theorem ofExponent?_padded (width n : Nat) :
    Decimal.ofExponent? ('+' :: DecimalLayout.padded width n) = some (n : Int) ∧
      Decimal.ofExponent? ('-' :: DecimalLayout.padded width n) = some (-n : Int) := by
  have hne : DecimalLayout.padded width n ≠ [] := by
    intro h
    have hd := (List.append_eq_nil_iff.1 h).2
    exact Nat.toDigits_ne_nil hd
  have hall : (DecimalLayout.padded width n).all isDigit := by
    rw [DecimalLayout.padded, List.all_append, toDigits_all, Bool.and_true]
    exact List.all_eq_true.2 fun c hc => by rw [List.eq_of_mem_replicate hc]; decide
  have hval : Decimal.ofDigits (DecimalLayout.padded width n) = n := by
    rw [DecimalLayout.padded, Decimal.ofDigits_zeros_append, ofDigits_toDigits]
  constructor
  · rw [Decimal.ofExponent?]
    dsimp only
    rw [if_pos ⟨hne, hall⟩, hval]
  · rw [Decimal.ofExponent?]
    dsimp only
    rw [if_pos ⟨hne, hall⟩, hval]
    rfl

theorem zeros_all (n : Nat) : (List.replicate n '0').all isDigit :=
  List.all_eq_true.2 fun c hc => by rw [List.eq_of_mem_replicate hc]; decide

theorem magnitude?_scientific (negative : Bool) {d : Char} {ds part : List Char}
    (hk : (d :: ds).all isDigit) (hz : d ≠ '0') {e : Int}
    (he : Decimal.ofExponent? part = some e) :
    magnitude? negative ((match d :: ds with
        | [] => []
        | [d] => [d]
        | d :: ds => d :: '.' :: ds) ++ 'e' :: part) =
      some (.ofDecimal negative ⟨Decimal.ofDigits (d :: ds), e - ds.length⟩) := by
  have hd : [d].all isDigit := by rw [List.all_cons, (Bool.and_eq_true_iff.1 hk).1]; rfl
  have hhead : [d] = ['0'] ∨ [d] ≠ [] ∧ [d].head? ≠ some '0' := .inr ⟨nofun, by simpa using hz⟩
  cases ds with
  | nil => simpa using magnitude?_whole negative hd hhead (.inl rfl) he
  | cons d' ds =>
    exact magnitude?_eq negative hd hhead (Bool.and_eq_true_iff.1 hk).2 (by simp)
      (show exponent? ('e' :: part) = some e from he) (by simp; decide)

theorem starts_whole {d : Char} (hz : d ≠ '0') (ds : List Char) :
    d :: ds = ['0'] ∨ d :: ds ≠ [] ∧ (d :: ds).head? ≠ some '0' :=
  .inr ⟨nofun, by simpa using hz⟩

theorem magnitude?_fraction (negative : Bool) {digits : List Char} (hk : digits.all isDigit)
    (hne : digits ≠ []) (n : Nat) :
    magnitude? negative ('0' :: '.' :: (List.replicate n '0' ++ digits)) =
      some (.ofDecimal negative ⟨Decimal.ofDigits digits, 0 - (n + digits.length : Nat)⟩) := by
  have hplaces : (List.replicate n '0' ++ digits).all isDigit := by
    rw [List.all_append, zeros_all, hk]
    rfl
  have h := magnitude?_pointed negative ['0'] (List.replicate n '0' ++ digits) (zeros_all 1)
    (.inl rfl) hplaces (by simp [hne])
  have hval : Decimal.ofDigits (['0'] ++ (List.replicate n '0' ++ digits)) =
      Decimal.ofDigits digits := by
    rw [← List.append_assoc]
    exact Decimal.ofDigits_zeros_append (n + 1) digits
  rwa [hval, List.length_append, List.length_replicate] at h

theorem magnitude?_integer (negative : Bool) {d : Char} {ds : List Char}
    (hk : (d :: ds).all isDigit) (hz : d ≠ '0') (n : Nat) :
    magnitude? negative (d :: ds ++ List.replicate n '0' ++ ['.', '0']) =
      some (.ofDecimal negative ⟨Decimal.ofDigits (d :: ds), n⟩) := by
  have hwhole : (d :: ds ++ List.replicate n '0').all isDigit := by
    rw [List.all_append, hk, zeros_all]
    rfl
  have h := magnitude?_pointed negative (d :: ds ++ List.replicate n '0') ['0'] hwhole
    (starts_whole hz _) (zeros_all 1) (List.cons_ne_nil _ _)
  have hval : Decimal.ofDigits (d :: ds ++ List.replicate n '0' ++ ['0']) =
      Decimal.ofDigits (d :: ds) * Nat.pow 10 (n + 1) := by
    rw [List.append_assoc, ← List.replicate_succ', Decimal.ofDigits_append_zeros]
  rwa [hval, Number.ofDecimal, Decimal.magnitude?_shift, ← Number.ofDecimal,
    show (0 : Int) - (['0'].length : Nat) + (n + 1 : Nat) = n by
      rw [List.length_singleton]; omega] at h

theorem magnitude?_mixed (negative : Bool) {d : Char} {ds : List Char}
    (hk : (d :: ds).all isDigit) (hz : d ≠ '0') {n : Nat} (hn : n < ds.length) :
    magnitude? negative (d :: ds.take n ++ '.' :: ds.drop n) =
      some (.ofDecimal negative ⟨Decimal.ofDigits (d :: ds), 0 - (ds.length - n : Nat)⟩) := by
  have hsplit : (d :: ds.take n) ++ ds.drop n = d :: ds := by
    rw [List.cons_append, List.take_append_drop]
  have hall := hk
  rw [← hsplit, List.all_append, Bool.and_eq_true] at hall
  have hplaces : ds.drop n ≠ [] := by
    rw [Ne, List.drop_eq_nil_iff]
    omega
  have h := magnitude?_pointed negative _ _ hall.1 (starts_whole hz _) hall.2 hplaces
  rwa [hsplit, List.length_drop] at h

theorem magnitude?_write {negative : Bool} {d : Char} {ds : List Char}
    (hk : (d :: ds).all isDigit) (hz : d ≠ '0') (point : Int) :
    magnitude? negative (Number.layout.write (d :: ds) point).toList =
      some (.ofDecimal negative ⟨Decimal.ofDigits (d :: ds), point - (d :: ds).length⟩) := by
  have hlength : (d :: ds).length = ds.length + 1 := rfl
  unfold DecimalLayout.write Number.layout
  dsimp only
  split_ifs with hplain hpoint hlong hneg
  · have h := magnitude?_fraction negative hk (List.cons_ne_nil d ds) (-point).toNat
    rw [show (0 : Int) - ((-point).toNat + (d :: ds).length : Nat) = point - (d :: ds).length by
      omega] at h
    rw [String.toList_ofList, List.append_assoc]
    exact h
  · have h := magnitude?_integer negative hk hz (point.toNat - (d :: ds).length)
    rw [show ((point.toNat - (d :: ds).length : Nat) : Int) = point - (d :: ds).length by
      omega] at h
    rw [String.toList_ofList]
    exact h
  · obtain ⟨n, hn⟩ : ∃ n, point.toNat = n + 1 := ⟨point.toNat - 1, by omega⟩
    have h := magnitude?_mixed negative hk hz (n := n) (by omega)
    rw [show (0 : Int) - (ds.length - n : Nat) = point - (d :: ds).length by omega] at h
    rw [String.toList_ofList, hn]
    exact h
  · have h := magnitude?_scientific negative hk hz (ofExponent?_padded 2 (point - 1).natAbs).2
    rw [show -((point - 1).natAbs : Int) - ds.length = point - (d :: ds).length by omega] at h
    rw [String.toList_ofList, List.append_assoc]
    exact h
  · have h := magnitude?_scientific negative hk hz (ofExponent?_padded 2 (point - 1).natAbs).1
    rw [show ((point - 1).natAbs : Int) - ds.length = point - (d :: ds).length by omega] at h
    rw [String.toList_ofList, List.append_assoc]
    exact h

theorem trimmed_zeros (digits : List Char) : ∃ t,
    digits = (digits.reverse.dropWhile (· = '0')).reverse ++ List.replicate t '0' := by
  refine ⟨(digits.reverse.takeWhile (· = '0')).length, ?_⟩
  have hzeros : digits.reverse.takeWhile (· = '0') =
      List.replicate (digits.reverse.takeWhile (· = '0')).length '0' :=
    List.eq_replicate_of_mem fun c hc => by simpa using (List.all_eq_true.1 List.all_takeWhile c hc)
  rw [← List.reverse_replicate, ← hzeros, ← List.reverse_append, List.takeWhile_append_dropWhile,
    List.reverse_reverse]

theorem magnitude?_shortest (m : Magnitude) : m.shortest.magnitude? = some m :=
  of_decide_eq_true (Magnitude.readsAs_shortest m)

theorem shortest_pos {m : Magnitude} (h : m.units ≠ 0) : 0 < m.shortest.coefficient := by
  refine Nat.pos_of_ne_zero fun hzero => h ?_
  have hm := magnitude?_shortest m
  rw [Decimal.magnitude?_zero hzero] at hm
  exact congrArg Magnitude.units (Option.some.inj hm).symm

theorem magnitude?_trimmed (negative : Bool) {d : Decimal} (hpos : 0 < d.coefficient) :
    magnitude? negative (Number.layout.write
      ((Nat.toDigits 10 d.coefficient).reverse.dropWhile (· = '0')).reverse
      ((Nat.toDigits 10 d.coefficient).length + d.exponent)).toList =
        some (.ofDecimal negative d) := by
  obtain ⟨t, ht⟩ := trimmed_zeros (Nat.toDigits 10 d.coefficient)
  obtain ⟨c, cs, hcs, hc⟩ := toDigits_head hpos
  have hall := toDigits_all d.coefficient
  have hcoefficient := ofDigits_toDigits d.coefficient
  generalize ((Nat.toDigits 10 d.coefficient).reverse.dropWhile (· = '0')).reverse = kept at ht ⊢
  cases kept with
  | nil =>
    rw [List.nil_append, hcs] at ht
    cases t with
    | zero => cases ht
    | succ t =>
      cases ht
      exact absurd rfl hc
  | cons k ks =>
    rw [ht, List.all_append, Bool.and_eq_true] at hall
    rw [ht, Decimal.ofDigits_append_zeros] at hcoefficient
    have hk : k ≠ '0' := by
      rw [hcs] at ht
      cases ht
      exact hc
    have hexponent : ((Nat.toDigits 10 d.coefficient).length : Int) + d.exponent -
        (k :: ks).length = d.exponent + t := by
      rw [ht, List.length_append, List.length_replicate]
      omega
    rw [magnitude?_write hall.1 hk, hexponent, Number.ofDecimal, ← Decimal.magnitude?_shift,
      hcoefficient]
    rfl

theorem magnitude?_magnitudeText (negative : Bool) (m : Magnitude) :
    magnitude? negative (Number.magnitudeText m).toList = some (.finite negative m) := by
  unfold Number.magnitudeText
  split_ifs with hm
  · have h := magnitude?_pointed negative ['0'] ['0'] (by decide) (.inl rfl) (by decide) (by simp)
    have hzero : (⟨0, -1⟩ : Decimal).magnitude? = some m :=
      (Decimal.magnitude?_zero rfl).trans (congrArg some (Magnitude.ext_units hm.symm))
    rw [show Decimal.ofDigits (['0'] ++ ['0']) = 0 from rfl,
      show (0 : Int) - (['0'].length : Nat) = -1 from rfl, Number.ofDecimal, hzero] at h
    exact h
  · have h := magnitude?_trimmed negative (shortest_pos hm)
    rw [Number.ofDecimal, magnitude?_shortest] at h
    exact h

theorem isWordChar_of_isDigit {c : Char} (h : isDigit c) : isWordChar c := by
  have hall : digits.all isWordChar := by decide
  exact List.all_eq_true.1 hall c (by simpa [isDigit] using h)

theorem all_word_of_digits {cs : List Char} (h : cs.all isDigit) : cs.all isWordChar :=
  List.all_eq_true.2 fun c hc => isWordChar_of_isDigit (List.all_eq_true.1 h c hc)

theorem whole?_split {cs whole behind : List Char} (h : whole? cs = some (whole, behind)) :
    cs = whole ++ behind ∧ whole.all isDigit ∧ whole ≠ [] := by
  unfold whole? at h
  dsimp only at h
  split_ifs at h with hw
  cases h
  refine ⟨List.takeWhile_append_dropWhile.symm, List.all_takeWhile, fun hnil => ?_⟩
  rw [hnil] at hw
  simp at hw

theorem places?_split {cs places behind : List Char} (h : places? cs = some (places, behind)) :
    ∃ written, cs = written ++ behind ∧ written.all isWordChar := by
  unfold places? at h
  split at h
  · next cs' =>
    split_ifs at h
    cases h
    refine ⟨'.' :: cs'.takeWhile isDigit, ?_, ?_⟩
    · rw [List.cons_append, List.takeWhile_append_dropWhile]
    · rw [List.all_cons, all_word_of_digits List.all_takeWhile]
      rfl
  · cases h
    exact ⟨[], rfl, rfl⟩

theorem ofExponent?_word {cs : List Char} {e : Int} (h : Decimal.ofExponent? cs = some e) :
    cs.all isWordChar := by
  unfold Decimal.ofExponent? at h
  dsimp only at h
  split at h
  · split_ifs at h with hd
    exact (Bool.and_eq_true_iff.2 ⟨rfl, all_word_of_digits hd.2⟩)
  · split_ifs at h with hd
    · exact (Bool.and_eq_true_iff.2 ⟨rfl, all_word_of_digits hd.2⟩)
    · cases h
  · split_ifs at h with hd
    exact all_word_of_digits hd.2

theorem exponent?_word {cs : List Char} {e : Int} (h : exponent? cs = some e) :
    cs.all isWordChar := by
  unfold exponent? at h
  split at h
  · rfl
  · split_ifs at h with hm
    rw [List.all_cons, ofExponent?_word h, Bool.and_true]
    rcases hm with rfl | rfl <;> rfl

theorem magnitude?_word {negative : Bool} {cs : List Char} {x : Number}
    (h : magnitude? negative cs = some x) :
    (∃ c rest, cs = c :: rest ∧ isDigit c) ∧ cs.all isWordChar := by
  unfold magnitude? at h
  cases hw : whole? cs with
  | none => rw [hw] at h; cases h
  | some w =>
    obtain ⟨whole, behind⟩ := w
    obtain ⟨rfl, hwhole, hne⟩ := whole?_split hw
    rw [hw] at h
    cases hp : places? behind with
    | none => simp [hp] at h
    | some p =>
      obtain ⟨places, part⟩ := p
      obtain ⟨written, rfl, hwritten⟩ := places?_split hp
      cases he : exponent? part with
      | none => simp [hp, he] at h
      | some e =>
        constructor
        · obtain ⟨c, rest, rfl⟩ := List.exists_cons_of_ne_nil hne
          exact ⟨c, _, rfl, (Bool.and_eq_true_iff.1 hwhole).1⟩
        · rw [List.all_append, List.all_append, all_word_of_digits hwhole, hwritten,
            exponent?_word he]
          rfl

theorem isDigit_ne {c : Char} (h : isDigit c) : c ≠ 'I' ∧ c ≠ '-' := by
  have hletter : ¬ isDigit 'I' := by decide
  have hsign : ¬ isDigit '-' := by decide
  exact ⟨fun hc => hletter (hc ▸ h), fun hc => hsign (hc ▸ h)⟩

theorem number?_unsigned {cs : List Char} {x : Number} (h : magnitude? false cs = some x) :
    number? cs = some x := by
  obtain ⟨⟨c, rest, rfl, hc⟩, -⟩ := magnitude?_word h
  have hname : c ≠ 'I' ∧ c ≠ '-' := isDigit_ne hc
  rw [number?, if_neg (by simp [infinityName, hname]), if_neg (by simp [hname])]
  · exact h
  · exact fun _ hcs => hname.2 (List.cons.inj hcs).1

theorem number?_negative {cs : List Char} {x : Number} (h : magnitude? true cs = some x) :
    number? ('-' :: cs) = some x := by
  obtain ⟨⟨c, rest, rfl, hc⟩, -⟩ := magnitude?_word h
  have hname : c ≠ 'I' := (isDigit_ne hc).1
  rw [number?, if_neg (by simp [infinityName]), if_neg (by simp [infinityName, hname])]
  exact h

theorem number?_numeral (x : Number) : number? (numeral x).toList = some x := by
  cases x with
  | infinite negative => cases negative <;> rfl
  | finite negative m =>
    have hread := magnitude?_magnitudeText negative m
    cases negative with
    | false => exact number?_unsigned hread
    | true =>
      have htext : (numeral (.finite true m)).toList = '-' :: (Number.magnitudeText m).toList :=
        String.toList_append
      rw [htext]
      exact number?_negative hread

theorem numeral_word (x : Number) : (numeral x).toList.all isWordChar := by
  cases x with
  | infinite negative => cases negative <;> rfl
  | finite negative m =>
    have hword := (magnitude?_word (magnitude?_magnitudeText negative m)).2
    cases negative with
    | false => exact hword
    | true =>
      have htext : (numeral (.finite true m)).toList = '-' :: (Number.magnitudeText m).toList :=
        String.toList_append
      rw [htext, List.all_cons, hword]
      rfl

end Json

end RuleLang
