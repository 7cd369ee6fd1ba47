import RuleLang.Proofs.Emission
import RuleLang.Proofs.JsonGrammar
import RuleLang.Proofs.ReadingOrder
import RuleLang.Proofs.Spacing

/-!
Numerals too large. A quotient rounds to a magnitude as long as it lies below 2^1024 by more than
half of the last place there, and a numeral from there on stands for an infinity. Tokens and trees
keep the numbers of a text, and signs add only finite ones. So the document of a text is standard if
and only if none of its numerals is too large.
-/
namespace RuleLang

theorem le_halfEven_div (a b : Nat) : a / b ≤ halfEven a b := by
  unfold halfEven
  split_ifs <;> omega

theorem le_halfEven_iff {a b n : Nat} (hb : 0 < b) (hn : n % 2 = 0) (hpos : 0 < n) :
    n ≤ halfEven a b ↔ (2 * n - 1) * b ≤ 2 * a := by
  have hsplit : b * (a / b) + a % b = a := Nat.div_add_mod a b
  have hlt : a % b < b := Nat.mod_lt a hb
  rcases Nat.lt_trichotomy n (a / b + 1) with h | h | h
  · have hmul : (2 * n - 1) * b ≤ 2 * (a / b) * b := Nat.mul_le_mul_right b (by omega)
    have hle := le_halfEven_div a b
    have hcomm : 2 * (a / b) * b = 2 * (b * (a / b)) := by ring
    constructor <;> intro <;> omega
  · have hmul : (2 * n - 1) * b = 2 * (b * (a / b)) + b := by
      rw [h, show 2 * (a / b + 1) - 1 = 2 * (a / b) + 1 by omega]
      ring
    rw [hmul]
    unfold halfEven
    split_ifs <;> constructor <;> intro <;> omega
  · have hmul : (2 * (a / b) + 3) * b ≤ (2 * n - 1) * b := Nat.mul_le_mul_right b (by omega)
    have hexpand : (2 * (a / b) + 3) * b = 2 * (b * (a / b)) + 3 * b := by ring
    have hle := halfEven_le a b
    constructor <;> intro <;> omega

namespace Magnitude

section Rounding

variable {N b place top half : Nat}

theorem round_below (hb : 0 < b) (hp : 0 < place) (hh : 0 < half)
    (hlt : N / b < 2 * half * place) (hle : place ≤ top) :
    ¬ 4 * half * top ≤ halfEven N (b * place) * place ∧ ¬ (4 * half - 1) * top * b ≤ N := by
  have htop : 0 < half * top := Nat.mul_pos hh (Nat.lt_of_lt_of_le hp hle)
  have hplaces : 2 * half * place ≤ 2 * half * top := Nat.mul_le_mul_left _ hle
  constructor
  · have hfew : N / (b * place) < 2 * half := by
      rw [← Nat.div_div_eq_div_mul]
      exact Nat.div_lt_of_lt_mul (by rwa [Nat.mul_comm])
    have hround : halfEven N (b * place) ≤ 2 * half := by
      have h := halfEven_le N (b * place)
      omega
    have hproduct : halfEven N (b * place) * place ≤ 2 * half * top := Nat.mul_le_mul hround hle
    have hdouble : 4 * half * top = 2 * half * top + 2 * (half * top) := by ring
    omega
  · have hN : N < 2 * half * place * b := (Nat.div_lt_iff_lt_mul hb).1 hlt
    have hplaces := Nat.mul_le_mul_right b hplaces
    have hmore : 2 * half * top * b ≤ (4 * half - 1) * top * b :=
      Nat.mul_le_mul_right b (Nat.mul_le_mul_right top (by omega))
    omega

theorem round_at (hb : 0 < b) (hh : 0 < half) (htop : 0 < top) :
    4 * half * top ≤ halfEven N (b * (2 * top)) * (2 * top) ↔ (4 * half - 1) * top * b ≤ N := by
  have hsides : 4 * half * top = 2 * half * (2 * top) := by ring
  have hhalves : (2 * (2 * half) - 1) * (b * (2 * top)) = 2 * ((4 * half - 1) * top * b) := by
    rw [← Nat.mul_assoc 2 2 half]
    ring
  rw [hsides, Nat.mul_le_mul_right_iff (Nat.mul_pos Nat.two_pos htop),
    le_halfEven_iff (Nat.mul_pos hb (Nat.mul_pos Nat.two_pos htop)) (Nat.mul_mod_right 2 half)
      (Nat.mul_pos Nat.two_pos hh), hhalves, Nat.mul_le_mul_left_iff Nat.two_pos]

theorem round_above (hp : 0 < place) (hpast : half * place ≤ N / b)
    (hle : 4 * top ≤ place) :
    4 * half * top ≤ halfEven N (b * place) * place ∧ (4 * half - 1) * top * b ≤ N := by
  have hplaces : half * (4 * top) ≤ half * place := Nat.mul_le_mul_left half hle
  have hsides : 4 * half * top = half * (4 * top) := by ring
  constructor
  · have hround : half ≤ halfEven N (b * place) := by
      refine Nat.le_trans ?_ (le_halfEven_div N (b * place))
      rw [← Nat.div_div_eq_div_mul]
      exact (Nat.le_div_iff_mul_le hp).2 hpast
    have hproduct := Nat.mul_le_mul_right place hround
    omega
  · calc (4 * half - 1) * top * b
      _ ≤ 4 * half * top * b := Nat.mul_le_mul_right b (Nat.mul_le_mul_right top (Nat.sub_le ..))
      _ ≤ N / b * b := Nat.mul_le_mul_right b (by omega)
      _ ≤ N := Nat.div_mul_le_self N b

end Rounding

/-- The first number that no magnitude is near enough to: 2^1024 less half of the last place below
it. -/
def overflowBound : Nat := (2 ^ 54 - 1) * 2 ^ 970

theorem unitsLimit_eq : unitsLimit = 4 * 2 ^ 52 * 2 ^ 2044 := by decide +kernel

theorem overflowBound_units : overflowBound * unitsOfOne = (4 * 2 ^ 52 - 1) * 2 ^ 2044 := by
  decide +kernel

theorem places_le {n e : Nat} (he : e = n.log2 - 52) (hpos : 0 < e) : 2 ^ 52 * 2 ^ e ≤ n := by
  have hne : n ≠ 0 := by
    rintro rfl
    rw [Nat.log2_zero] at he
    omega
  rw [← Nat.pow_add, show 52 + e = n.log2 by omega]
  exact Nat.log2_self_le hne

theorem unitsLimit_le_roundUnits {a b : Nat} (hb : 0 < b) :
    unitsLimit ≤ roundUnits a b ↔ overflowBound * b ≤ a := by
  have hcancel : overflowBound * b ≤ a ↔ (4 * 2 ^ 52 - 1) * 2 ^ 2044 * b ≤ a * unitsOfOne := by
    rw [← overflowBound_units, Nat.mul_right_comm, Nat.mul_le_mul_right_iff unitsOfOne_pos]
  rw [hcancel, unitsLimit_eq, roundUnits]
  generalize a * unitsOfOne = N
  have hpower : 2 ^ 53 = 2 * 2 ^ 52 := rfl
  have hlt := lt_places (N / b)
  simp only [lastPlace, Nat.pow_eq] at hlt ⊢
  rw [hpower] at hlt
  generalize he : (N / b).log2 - 52 = e at hlt ⊢
  generalize 2044 = m
  have hhalf : 0 < 2 ^ 52 := by decide
  have hpow {k l : Nat} (h : k ≤ l) : 2 ^ k ≤ 2 ^ l := Nat.pow_le_pow_right Nat.two_pos h
  rcases Nat.lt_trichotomy e (m + 1) with h | rfl | h
  · obtain ⟨hround, hless⟩ :=
      round_below hb (Nat.two_pow_pos e) hhalf hlt (hpow (Nat.le_of_lt_succ h))
    exact iff_of_false hround hless
  · have hplace : 2 ^ (m + 1) = 2 * 2 ^ m := Nat.pow_succ'
    rw [hplace]
    exact round_at hb hhalf (Nat.two_pow_pos m)
  · have hle : 4 * 2 ^ m ≤ 2 ^ e := by
      rw [show (4 : Nat) = 2 ^ 2 by rfl, ← Nat.pow_add]
      exact hpow (by omega)
    obtain ⟨hround, hmore⟩ := round_above (Nat.two_pow_pos e) (places_le he.symm (by omega)) hle
    exact iff_of_true hround hmore

end Magnitude

theorem Decimal.quotient_pos (d : Decimal) : 0 < d.quotient.2 := by
  unfold quotient
  split_ifs
  · exact Nat.one_pos
  · exact Nat.pow_pos (by decide)

theorem Number.isInfinite_ofDecimal (negative : Bool) (d : Decimal) :
    (ofDecimal negative d).isInfinite ↔ Magnitude.overflowBound * d.quotient.2 ≤ d.quotient.1 := by
  rw [← Magnitude.unitsLimit_le_roundUnits d.quotient_pos, ofDecimal, Decimal.magnitude?,
    Magnitude.round?]
  split_ifs with h
  · exact iff_of_false (by simp [ofRounded, isInfinite]) (Nat.not_le.2 h)
  · exact iff_of_true rfl (Nat.not_lt.1 h)

/-- The numeral has a value, and no magnitude is near enough to it. -/
def TooLarge (raw : List Char) : Prop :=
  ∃ d, Decimal.ofNumeral? raw = some d ∧ Magnitude.overflowBound * d.quotient.2 ≤ d.quotient.1

theorem Spelling.tooLarge_iff {raw : List Char} {x : Number} (h : Spelling raw (.number x)) :
    TooLarge raw ↔ x.isInfinite := by
  have hvalue {d : Decimal} (hd : Decimal.ofNumeral? raw = some d) :
      TooLarge raw ↔ (Number.ofDecimal false d).isInfinite := by
    rw [Number.isInfinite_ofDecimal, TooLarge, hd]
    simp
  cases h with
  | whole hne hds => exact hvalue (Lexer.ofNumeral?_whole hne hds)
  | pointed hne hds hps => exact hvalue (Lexer.ofNumeral?_pointed hne hds hps)

def Lexeme.number? : Lexeme → Option Number
  | number x => some x
  | _ => none

def Token.number? (t : Token) : Option Number := t.lexeme.number?

def Piece.number? : Piece → Option Number
  | mark x => x.number?
  | leaf t => t.number?

theorem Spells.numbers {ps : List Piece} {ts : List Token} (h : Spells ps ts) :
    ps.filterMap Piece.number? = ts.filterMap Token.number? := by
  induction h with
  | nil => rfl
  | @cons p t ps ts hp _ ih =>
    have hpt : p.number? = t.number? := by
      cases p with
      | mark x =>
        obtain rfl : t.lexeme = x := hp
        rfl
      | leaf u =>
        obtain rfl : t = u := hp
        rfl
    rw [List.filterMap_cons, List.filterMap_cons, hpt, ih]

namespace Json

theorem numbers_tagged (kind : String) (parts : List (String × Json)) :
    (tagged kind parts).numbers = numbersPairs parts := by
  rw [tagged, numbers, numbersPairs]
  rfl

theorem numbersAll_texts (items : List String) : numbersAll (items.map text) = [] := by
  induction items with
  | nil => rfl
  | cons s items ih =>
    rw [List.map_cons, numbersAll, ih]
    rfl

theorem numbers_token (t : Token) : t.toJson.numbers = t.number?.toList := by
  obtain ⟨x, p⟩ := t
  cases x <;> rfl

theorem numbersAll_tokens (ts : List Token) :
    numbersAll (ts.map Token.toJson) = ts.filterMap Token.number? := by
  induction ts with
  | nil => rfl
  | cons t ts ih =>
    rw [List.map_cons, numbersAll, numbers_token, ih, List.filterMap_cons]
    cases t.number? <;> rfl

end Json

namespace Node

open Json

theorem numbers_identifiers (names : List String) :
    (names.map Piece.identifier).filterMap Piece.number? = [] := by
  simp [Piece.identifier, Piece.number?, Lexeme.number?]

mutual

theorem numbers_toJson : ∀ n : Node, n.toJson.numbers = n.inOrder.filterMap Piece.number?
  | leaf t => by
    rw [toJson, numbers_token, inOrder, List.filterMap_cons, List.filterMap_nil, Piece.number?]
    cases t.number? <;> rfl
  | block body => by
    simp only [toJson, numbers_tagged, numbersPairs, numbers, List.append_nil, inOrder]
    exact numbers_toJsonAll body
  | call callee args => by
    simp only [toJson, numbers_tagged, numbersPairs, numbers, List.append_nil, inOrder,
      List.filterMap_append]
    rw [numbers_toJson callee, numbers_toJsonAll args]
  | rule name params body => by
    rw [inOrder, List.filterMap_append, List.filterMap_append, numbers_identifiers,
      numbers_identifiers, ← numbers_toJson body]
    cases name <;>
    simp only [toJson, numbers_tagged, numbersPairs, texts, numbers, numbersAll_texts,
      List.append_nil, List.nil_append]
  | binary op left right => by
    simp only [toJson, numbers_tagged, numbersPairs, numbers, List.append_nil, List.nil_append,
      inOrder, List.filterMap_append]
    rw [numbers_toJson left, numbers_toJson right, List.filterMap_cons_none rfl]
  | assign left right => by
    simp only [toJson, numbers_tagged, numbersPairs, List.append_nil, inOrder,
      List.filterMap_append]
    rw [numbers_toJson left, numbers_toJson right, List.filterMap_cons_none rfl]
  | truth value => rfl
  | blank => rfl

theorem numbers_toJsonAll : ∀ ns : List Node,
    numbersAll (toJsonAll ns) = (inOrderAll ns).filterMap Piece.number?
  | [] => rfl
  | n :: ns => by
    rw [toJsonAll, numbersAll, numbers_toJson n, numbers_toJsonAll ns, inOrderAll,
      List.filterMap_append]

end

end Node

namespace Token

theorem infinite_keptAll (unary : Bool) (ts : List Token) :
    ((keptAll unary ts).filterMap number?).any Number.isInfinite =
      (ts.filterMap number?).any Number.isInfinite := by
  have hkept (unary : Bool) (t : Token) : ((t.kept unary).filterMap number?).any Number.isInfinite =
      ([t].filterMap number?).any Number.isInfinite := by
    obtain ⟨x, p⟩ := t
    cases x with
    | string | number | identifier | punctuation => rfl
    | keyword w =>
      simp only [kept]
      split_ifs <;> rfl
    | operator o =>
      simp only [kept]
      split_ifs <;> rfl
  induction ts generalizing unary with
  | nil => rfl
  | cons t ts ih =>
    rw [keptAll, List.filterMap_append, List.any_append, hkept, ih, ← List.any_append,
      ← List.filterMap_append, List.singleton_append]

end Token

theorem Munches.spaced {p q : Position} {cs last : List Char} {ts : List Token}
    (h : Munches p cs ts q last) : ∃ pieces, cs = Spaced.text pieces last ∧
      ts = Spaced.tokens p pieces ∧ ∀ s ∈ pieces, Gap s.gap ∧ Spelling s.chars s.lexeme := by
  induction h with
  | nil p cs => exact ⟨[], rfl, rfl, nofun⟩
  | @cons p q gap x cs last y ts hg hx _ _ ih =>
    obtain ⟨pieces, rfl, rfl, hall⟩ := ih
    refine ⟨⟨gap, x, y⟩ :: pieces, (Spaced.text_cons ⟨gap, x, y⟩ _ _).symm, rfl, ?_⟩
    exact List.forall_mem_cons.2 ⟨⟨hg, hx⟩, hall⟩

theorem Spaced.numbers_tokens (p : Position) (pieces : List Spaced) :
    (tokens p pieces).filterMap Token.number? =
      (pieces.map (·.lexeme)).filterMap Lexeme.number? := by
  rw [← lexemes_tokens p pieces, List.filterMap_map]
  rfl

theorem finite_spaced {pieces : List Spaced} (h : ∀ s ∈ pieces, Spelling s.chars s.lexeme) :
    (∀ x ∈ (pieces.map (·.lexeme)).filterMap Lexeme.number?, x.isInfinite = false) ↔
      ∀ s ∈ pieces, s.lexeme.kind = .number → ¬ TooLarge s.chars := by
  rw [List.forall_mem_filterMap, List.forall_mem_map]
  refine forall₂_congr fun s hs => ?_
  have hspelled := h s hs
  cases hx : s.lexeme with
  | number x =>
    rw [hx] at hspelled
    rw [hspelled.tooLarge_iff]
    simp [Lexeme.number?, Lexeme.kind]
  | _ => simp [Lexeme.number?, Lexeme.kind]

namespace Command

theorem numbers_contentOf {tokens : Bool} {source : List Char} {content : Json}
    (h : contentOf tokens source = .ok content) : ∃ ts, tokenize source = .ok ts ∧
      content.numbers.any Number.isInfinite =
        (ts.filterMap Token.number?).any Number.isInfinite := by
  unfold contentOf at h
  split_ifs at h
  · cases ht : tokenize source with
    | error e => rw [ht] at h; cases h
    | ok ts =>
      rw [ht] at h
      cases h
      exact ⟨ts, rfl, congrArg (List.any · _) (Json.numbersAll_tokens ts)⟩
  · cases hn : parse source with
    | error e => rw [hn] at h; cases h
    | ok nodes =>
      rw [hn] at h
      cases h
      obtain ⟨ts, ht, hread⟩ := reads_of_parse hn
      obtain ⟨after, haccounts⟩ := hread.accounted
      refine ⟨ts, ht, ?_⟩
      rw [Json.numbers, Node.numbers_toJsonAll, haccounts.spells.numbers, Token.infinite_keptAll]

/-- The command emits a standard document for a text, among tokens or trees and under whatever
indentation, if and only if no numeral that the text is put together from is too large. -/
theorem document_standard_iff {s : Settings} {source : List Char} {document : String}
    (h : Emits s source document) : ∃ pieces last, source = Spaced.text pieces last ∧
      (∀ t ∈ pieces, Gap t.gap ∧ Spelling t.chars t.lexeme) ∧ FinalGap last ∧
      tokenize source = .ok (Spaced.tokens .start pieces) ∧
      (Json.StandardDocument document.toList ↔
        ∀ t ∈ pieces, t.lexeme.kind = .number → ¬ TooLarge t.chars) := by
  obtain ⟨content, width, hcontent, -, rfl⟩ := h.content
  obtain ⟨ts, ht, hnumbers⟩ := numbers_contentOf hcontent
  obtain ⟨q, last, hcut, hlast⟩ := munches_of_tokenize ht
  obtain ⟨pieces, hsource, rfl, hall⟩ := hcut.spaced
  refine ⟨pieces, last, hsource, hall, hlast, ht, ?_⟩
  have hfinite (xs : List Number) :
      (∀ x ∈ xs, x.isInfinite = false) ↔ xs.any Number.isInfinite = false := by simp
  rw [Json.standard_document, hfinite, hnumbers, ← hfinite, Spaced.numbers_tokens,
    finite_spaced fun t ht => (hall t ht).2]

theorem document_standard_iff_signed :
    let source := "-2.5".toList
    let s : Settings := ⟨"-2.5", true, false, none, false, .single, false⟩
    ∃ document, Emits s source document ∧ ∃ pieces last, source = Spaced.text pieces last ∧
      (∀ t ∈ pieces, Gap t.gap ∧ Spelling t.chars t.lexeme) ∧ FinalGap last ∧
      tokenize source = .ok (Spaced.tokens .start pieces) ∧
      (Json.StandardDocument document.toList ↔
        ∀ t ∈ pieces, t.lexeme.kind = .number → ¬ TooLarge t.chars) := by
  intro source s
  have hok : (parse source).isOk := by decide +kernel
  cases hn : parse source with
  | error e => simp [hn, Except.isOk, Except.toBool] at hok
  | ok nodes =>
    have hc : contentOf s.tokens source = .ok (.array (Node.toJsonAll nodes)) := by
      rw [contentOf, if_neg (by decide), hn]
      rfl
    have h : Emits s source _ := emits_literal rfl hc rfl rfl
    exact ⟨_, h, document_standard_iff h⟩

/-- A numeral of three hundred and ten nines makes a document that is not standard. -/
theorem nines_not_standard :
    let source := List.replicate 310 '9'
    let s : Settings := ⟨String.ofList source, true, true, none, false, .columns 2, false⟩
    ∃ document, Emits s source document ∧ ¬ Json.StandardDocument document.toList := by
  intro source s
  have ht : tokenize source = .ok [⟨.number (.infinite false), .start⟩] :=
    eq_ok_of_toOption (by decide +kernel)
  have hsource : s.source.toList = source := String.toList_ofList
  have hc : contentOf s.tokens s.source.toList =
      .ok (.array [Token.toJson ⟨.number (.infinite false), .start⟩]) := by
    rw [hsource, contentOf, if_pos rfl, ht]
    rfl
  have h : Emits s s.source.toList _ := emits_literal rfl hc rfl rfl
  rw [hsource] at h
  refine ⟨_, h, fun hstandard => ?_⟩
  have hfinite := (Json.standard_document _ _).1 hstandard (.infinite false) (by decide)
  cases hfinite

end Command

end RuleLang
