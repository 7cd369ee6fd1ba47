import Mathlib.Tactic.Common
import RuleLang.Text.Utf8

/-!
Strict UTF-8 is what encoding gives. The first octet of a sequence leaves open which others
complete it; those that do are the octets of one character, and nothing else is decoded. So octets
are decoded to a text exactly if they encode it.
-/
namespace RuleLang.Text.Utf8

/-- So many octets, the first of them in the range and every other a continuation. -/
inductive Tail : Nat → Nat → Nat → List UInt8 → Prop
  | nil {low high : Nat} : Tail low high 0 []
  | cons {low high n : Nat} {b : UInt8} {tail : List UInt8} (hb : low ≤ b.toNat ∧ b.toNat ≤ high)
      (h : Tail 0x80 0xbf n tail) : Tail low high (n + 1) (b :: tail)

theorem Tail.length {low high n : Nat} {tail : List UInt8} (h : Tail low high n tail) :
    tail.length = n := by
  induction h with
  | nil => rfl
  | cons _ _ ih => rw [List.length_cons, ih]

theorem Tail.nonempty {low high n : Nat} {tail : List UInt8} (h : Tail low high (n + 1) tail) :
    ∃ b rest, tail = b :: rest ∧ low ≤ b.toNat ∧ b.toNat ≤ high ∧ Tail 0x80 0xbf n rest := by
  cases h with
  | cons hb h => exact ⟨_, _, rfl, hb.1, hb.2, h⟩

theorem Tail.empty {low high : Nat} {tail : List UInt8} (h : Tail low high 0 tail) :
    tail = [] := by
  cases h
  rfl

@[irreducible] def gathered (value : Nat) (tail : List UInt8) : Nat :=
  tail.foldl (fun v b => v * 64 + (b.toNat - 0x80)) value

theorem gathered_nil (value : Nat) : gathered value [] = value := by
  rw [gathered, List.foldl_nil]

theorem gathered_cons (value : Nat) (b : UInt8) (tail : List UInt8) :
    gathered value (b :: tail) = gathered (value * 64 + (b.toNat - 0x80)) tail := by
  rw [gathered, gathered, List.foldl_cons]

theorem map_cons_ok {x : Except DecodeError (List Char)} {c : Char} {cs : List Char} :
    (c :: ·) <$> x = .ok cs ↔ ∃ cs', x = .ok cs' ∧ cs = c :: cs' := by
  cases x with
  | error e => simp [Functor.map, Except.map]
  | ok cs' => simp [Functor.map, Except.map, eq_comm]

def Pending.next (p : Pending) (b : UInt8) : Pending :=
  ⟨p.first, p.octet, p.length + 1, p.value * 64 + (b.toNat - 0x80), p.missing - 1, 0x80, 0xbf⟩

theorem gathered_next (p : Pending) (b : UInt8) (tail : List UInt8) :
    gathered p.value (b :: tail) = gathered (p.next b).value tail := gathered_cons _ _ _

theorem decodeFrom_octet {position : Nat} {p : Pending} {octets : List UInt8} {cs : List Char} :
    decodeFrom position (some p) octets = .ok cs ↔ ∃ b rest, octets = b :: rest ∧
      (p.low ≤ b.toNat ∧ b.toNat ≤ p.high) ∧
      if p.missing ≤ 1 then
        ∃ cs', decodeFrom (position + 1) none rest = .ok cs' ∧
          cs = Char.ofNat (p.next b).value :: cs'
      else decodeFrom (position + 1) (some (p.next b)) rest = .ok cs := by
  constructor
  · intro h
    cases octets with
    | nil => cases h
    | cons b rest =>
      rw [decodeFrom] at h
      split_ifs at h with hb hlast
      · exact ⟨b, rest, rfl, hb, by rw [if_pos hlast]; exact map_cons_ok.1 h⟩
      · exact ⟨b, rest, rfl, hb, by rw [if_neg hlast]; exact h⟩
  · rintro ⟨b, rest, rfl, hb, h⟩
    rw [decodeFrom, if_pos hb]
    dsimp only
    split_ifs at h ⊢ with hlast
    · exact map_cons_ok.2 h
    · exact h

theorem decodeFrom_pending {position : Nat} {p : Pending} {n : Nat} (hn : p.missing = n + 1)
    {octets : List UInt8} {cs : List Char} :
    decodeFrom position (some p) octets = .ok cs ↔ ∃ tail rest, octets = tail ++ rest ∧
      Tail p.low p.high (n + 1) tail ∧ ∃ cs', decodeFrom (position + (n + 1)) none rest = .ok cs' ∧
      cs = Char.ofNat (gathered p.value tail) :: cs' := by
  rw [decodeFrom_octet]
  induction n generalizing position p octets with
  | zero =>
    have hlast : p.missing ≤ 1 := by omega
    simp only [if_pos hlast]
    constructor
    · rintro ⟨b, rest, rfl, hb, hrest⟩
      refine ⟨[b], rest, rfl, .cons hb .nil, ?_⟩
      rw [gathered_next, gathered_nil]
      exact hrest
    · rintro ⟨tail, rest, rfl, ht, hrest⟩
      obtain ⟨b, _, rfl, hb, hb', ht⟩ := ht.nonempty
      obtain rfl := ht.empty
      rw [gathered_next, gathered_nil] at hrest
      exact ⟨b, rest, rfl, ⟨hb, hb'⟩, hrest⟩
  | succ n ih =>
    have hmore : ¬ p.missing ≤ 1 := by omega
    have hleft (b : UInt8) : (p.next b).missing = n + 1 := Nat.sub_eq_of_eq_add hn
    have hposition : position + (n + 1 + 1) = position + 1 + (n + 1) := by omega
    simp only [if_neg hmore, hposition]
    constructor
    · rintro ⟨b, octets, rfl, hb, h⟩
      obtain ⟨tail, rest, rfl, ht, hrest⟩ := (ih (hleft b)).1 (decodeFrom_octet.1 h)
      refine ⟨b :: tail, rest, rfl, .cons hb ht, ?_⟩
      rw [gathered_next]
      exact hrest
    · rintro ⟨tail, rest, rfl, ht, hrest⟩
      obtain ⟨b, tail, rfl, hb, hb', ht⟩ := ht.nonempty
      rw [gathered_next] at hrest
      exact ⟨b, tail ++ rest, rfl, ⟨hb, hb'⟩,
        decodeFrom_octet.2 ((ih (hleft b)).2 ⟨tail, rest, rfl, ht, hrest⟩)⟩

def Sequence (b : UInt8) (tail : List UInt8) (c : Char) : Prop :=
  if b.toNat < 0x80 then tail = [] ∧ c = Char.ofNat b.toNat
  else ∃ value missing low high, start? b.toNat = some (value, missing, low, high) ∧
    Tail low high missing tail ∧ c = Char.ofNat (gathered value tail)

theorem start?_eq {n value missing low high : Nat}
    (h : start? n = some (value, missing, low, high)) :
    (0xc2 ≤ n ∧ n ≤ 0xdf ∧ value + 0xc0 = n ∧ missing = 1 ∧ 0x80 ≤ low ∧ high ≤ 0xbf) ∨
      (0xe0 ≤ n ∧ n ≤ 0xef ∧ value + 0xe0 = n ∧ missing = 2 ∧ 0x80 ≤ low ∧ high ≤ 0xbf ∧
        (n = 0xe0 → 0xa0 ≤ low) ∧ (n = 0xed → high ≤ 0x9f)) ∨
      (0xf0 ≤ n ∧ n ≤ 0xf4 ∧ value + 0xf0 = n ∧ missing = 3 ∧ 0x80 ≤ low ∧ high ≤ 0xbf ∧
        (n = 0xf0 → 0x90 ≤ low) ∧ (n = 0xf4 → high ≤ 0x8f)) := by
  unfold start? at h
  split_ifs at h <;> simp only [Option.some.injEq, Prod.mk.injEq] at h <;> omega

theorem start?_missing {n value missing low high : Nat}
    (h : start? n = some (value, missing, low, high)) : ∃ m, missing = m + 1 := by
  obtain ⟨-, -, -, h, -⟩ | ⟨-, -, -, h, -⟩ | ⟨-, -, -, h, -⟩ := start?_eq h <;> exact ⟨_, h⟩

theorem decodeFrom_cons {position : Nat} {b : UInt8} {octets : List UInt8} {cs : List Char} :
    decodeFrom position none (b :: octets) = .ok cs ↔ ∃ tail rest c cs', octets = tail ++ rest ∧
      Sequence b tail c ∧ decodeFrom (position + 1 + tail.length) none rest = .ok cs' ∧
      cs = c :: cs' := by
  rw [decodeFrom]
  by_cases hb : b.toNat < 0x80
  · rw [if_pos hb, map_cons_ok]
    constructor
    · rintro ⟨cs', h, rfl⟩
      exact ⟨[], octets, _, cs', rfl, by rw [Sequence, if_pos hb]; exact ⟨rfl, rfl⟩, h, rfl⟩
    · rintro ⟨tail, rest, c, cs', rfl, hs, h, rfl⟩
      rw [Sequence, if_pos hb] at hs
      obtain ⟨rfl, rfl⟩ := hs
      exact ⟨cs', h, rfl⟩
  · rw [if_neg hb]
    cases hstart : start? b.toNat with
    | none =>
      constructor
      · nofun
      · rintro ⟨tail, rest, c, cs', rfl, hs, -⟩
        rw [Sequence, if_neg hb] at hs
        obtain ⟨value, missing, low, high, hs, -⟩ := hs
        rw [hstart] at hs
        cases hs
    | some s =>
      obtain ⟨value, missing, low, high⟩ := s
      obtain ⟨m, rfl⟩ := start?_missing hstart
      dsimp only
      rw [decodeFrom_pending rfl]
      constructor
      · rintro ⟨tail, rest, rfl, ht, cs', h, rfl⟩
        rw [← ht.length] at h
        refine ⟨tail, rest, _, cs', rfl, ?_, h, rfl⟩
        rw [Sequence, if_neg hb]
        exact ⟨value, m + 1, low, high, hstart, ht, rfl⟩
      · rintro ⟨tail, rest, c, cs', rfl, hs, h, rfl⟩
        rw [Sequence, if_neg hb] at hs
        obtain ⟨value', missing', low', high', hs, ht, rfl⟩ := hs
        rw [hstart] at hs
        cases hs
        rw [ht.length] at h
        exact ⟨tail, rest, rfl, ht, cs', h, rfl⟩

theorem toNat_ofNat {n : Nat} (h : n.isValidChar) : (Char.ofNat n).toNat = n := by
  rw [Char.ofNat, dif_pos h]
  rfl

theorem ofNat_eq {n : Nat} {b : UInt8} (h : n = b.toNat) : UInt8.ofNat n = b := by
  rw [h, UInt8.ofNat_toNat]

theorem encodeChar_ofNat {v : Nat} (h : v.isValidChar) : String.utf8EncodeChar (Char.ofNat v) =
    if v ≤ 0x7f then [UInt8.ofNat v]
    else if v ≤ 0x7ff then [UInt8.ofNat (v / 64 % 32 + 0xc0), UInt8.ofNat (v % 64 + 0x80)]
    else if v ≤ 0xffff then
      [UInt8.ofNat (v / 4096 % 16 + 0xe0), UInt8.ofNat (v / 64 % 64 + 0x80),
        UInt8.ofNat (v % 64 + 0x80)]
    else
      [UInt8.ofNat (v / 262144 % 8 + 0xf0), UInt8.ofNat (v / 4096 % 64 + 0x80),
        UInt8.ofNat (v / 64 % 64 + 0x80), UInt8.ofNat (v % 64 + 0x80)] := by
  unfold String.utf8EncodeChar
  rw [Char.toNat_val, toNat_ofNat h]

theorem Sequence.encodeChar {b : UInt8} {tail : List UInt8} {c : Char} (h : Sequence b tail c) :
    String.utf8EncodeChar c = b :: tail := by
  unfold Sequence at h
  split_ifs at h with hb
  · obtain ⟨rfl, rfl⟩ := h
    rw [encodeChar_ofNat (.inl (by omega)), if_pos (by omega), ofNat_eq rfl]
  · obtain ⟨value, missing, low, high, hs, ht, rfl⟩ := h
    obtain ⟨h1, h2, h3, rfl, hlow, hhigh⟩ | ⟨h1, h2, h3, rfl, hlow, hhigh, hl, hh⟩ |
      ⟨h1, h2, h3, rfl, hlow, hhigh, hl, hh⟩ := start?_eq hs
    · obtain ⟨x, _, rfl, hx, hx', ht⟩ := ht.nonempty
      obtain rfl := ht.empty
      rw [gathered_cons, gathered_nil, encodeChar_ofNat (.inl (by omega)), if_neg (by omega),
        if_pos (by omega), ofNat_eq (b := b) (by omega), ofNat_eq (b := x) (by omega)]
    · obtain ⟨x, _, rfl, hx, hx', ht⟩ := ht.nonempty
      obtain ⟨y, _, rfl, hy, hy', ht⟩ := ht.nonempty
      obtain rfl := ht.empty
      have hv : ((value * 64 + (x.toNat - 0x80)) * 64 + (y.toNat - 0x80)).isValidChar := by
        unfold Nat.isValidChar
        omega
      rw [gathered_cons, gathered_cons, gathered_nil, encodeChar_ofNat hv, if_neg (by omega),
        if_neg (by omega), if_pos (by omega), ofNat_eq (b := b) (by omega),
        ofNat_eq (b := x) (by omega), ofNat_eq (b := y) (by omega)]
    · obtain ⟨x, _, rfl, hx, hx', ht⟩ := ht.nonempty
      obtain ⟨y, _, rfl, hy, hy', ht⟩ := ht.nonempty
      obtain ⟨z, _, rfl, hz, hz', ht⟩ := ht.nonempty
      obtain rfl := ht.empty
      rw [gathered_cons, gathered_cons, gathered_cons, gathered_nil,
        encodeChar_ofNat (.inr (by omega)), if_neg (by omega), if_neg (by omega),
        if_neg (by omega), ofNat_eq (b := b) (by omega), ofNat_eq (b := x) (by omega),
        ofNat_eq (b := y) (by omega), ofNat_eq (b := z) (by omega)]

theorem octet {n : Nat} (h : n < 256) : (UInt8.ofNat n).toNat = n := by
  rw [UInt8.toNat_ofNat', Nat.mod_eq_of_lt h]

theorem gathered_octet (value n : Nat) (tail : List UInt8) :
    gathered value (UInt8.ofNat (n % 64 + 0x80) :: tail) = gathered (value * 64 + n % 64) tail := by
  rw [gathered_cons, octet (by omega), Nat.add_sub_cancel]

theorem Sequence.of_start {b : UInt8} {tail : List UInt8} {c : Char}
    {value missing low high : Nat} (hb : 0x80 ≤ b.toNat)
    (hs : start? b.toNat = some (value, missing, low, high)) (ht : Tail low high missing tail)
    (hc : gathered value tail = c.toNat) : Sequence b tail c := by
  rw [Sequence, if_neg (by omega)]
  exact ⟨value, missing, low, high, hs, ht, by rw [hc, Char.ofNat_toNat]⟩

theorem Tail.octet {n m : Nat} {tail : List UInt8} (h : Tail 0x80 0xbf m tail) :
    Tail 0x80 0xbf (m + 1) (UInt8.ofNat (n % 64 + 0x80) :: tail) := by
  refine .cons ?_ h
  rw [Utf8.octet (by omega)]
  omega

theorem start?_two (value : Nat) (h : 2 ≤ value ∧ value < 32) :
    start? (value + 0xc0) = some (value, 1, 0x80, 0xbf) := by
  rw [start?, if_pos (by omega), Nat.add_sub_cancel]

theorem start?_three (value second : Nat) (h : value < 16)
    (hs : 0x80 ≤ second ∧ second ≤ 0xbf) (hlow : value = 0 → 0xa0 ≤ second)
    (hhigh : value = 0xd → second ≤ 0x9f) : ∃ low high,
      start? (value + 0xe0) = some (value, 2, low, high) ∧ low ≤ second ∧ second ≤ high := by
  unfold start?
  rw [if_neg (by omega)]
  split_ifs with h1 h2 h3
  · exact ⟨_, _, by rw [show value = 0 by omega], by omega, by omega⟩
  · exact ⟨_, _, by rw [show value = 0xd by omega], by omega, by omega⟩
  · exact ⟨_, _, by rw [Nat.add_sub_cancel], by omega, by omega⟩
  all_goals omega

theorem start?_four (value second : Nat) (h : value < 5)
    (hs : 0x80 ≤ second ∧ second ≤ 0xbf) (hlow : value = 0 → 0x90 ≤ second)
    (hhigh : value = 4 → second ≤ 0x8f) : ∃ low high,
      start? (value + 0xf0) = some (value, 3, low, high) ∧ low ≤ second ∧ second ≤ high := by
  unfold start?
  rw [if_neg (by omega), if_neg (by omega), if_neg (by omega), if_neg (by omega)]
  split_ifs with h1 h2 h3
  · exact ⟨_, _, by rw [show value = 0 by omega], by omega, by omega⟩
  · exact ⟨_, _, by rw [Nat.add_sub_cancel], by omega, by omega⟩
  · exact ⟨_, _, by rw [show value = 4 by omega], by omega, by omega⟩
  · omega

theorem sequence_encodeChar (c : Char) : ∃ b tail, String.utf8EncodeChar c = b :: tail ∧
    Sequence b tail c := by
  have hc : c.toNat.isValidChar := c.valid
  have hencode := encodeChar_ofNat hc
  rw [Char.ofNat_toNat] at hencode
  rw [hencode]
  unfold Nat.isValidChar at hc
  split_ifs with h1 h2 h3
  · refine ⟨_, _, rfl, ?_⟩
    rw [Sequence, octet (by omega), if_pos (by omega), Char.ofNat_toNat]
    exact ⟨rfl, rfl⟩
  · refine ⟨_, _, rfl, ?_⟩
    have hb : (UInt8.ofNat (c.toNat / 64 % 32 + 0xc0)).toNat = c.toNat / 64 % 32 + 0xc0 :=
      octet (by omega)
    have hs := start?_two (c.toNat / 64 % 32) (by omega)
    refine .of_start (by omega) (hb ▸ hs) (.octet .nil) ?_
    rw [gathered_octet, gathered_nil]
    omega
  · refine ⟨_, _, rfl, ?_⟩
    have hb : (UInt8.ofNat (c.toNat / 4096 % 16 + 0xe0)).toNat = c.toNat / 4096 % 16 + 0xe0 :=
      octet (by omega)
    have hx : (UInt8.ofNat (c.toNat / 64 % 64 + 0x80)).toNat = c.toNat / 64 % 64 + 0x80 :=
      octet (by omega)
    obtain ⟨low, high, hs, hlow, hhigh⟩ := start?_three (c.toNat / 4096 % 16)
      (c.toNat / 64 % 64 + 0x80) (by omega) (by omega) (by omega) (by omega)
    refine .of_start (by omega) (hb ▸ hs) (.cons ⟨by omega, by omega⟩ (.octet .nil)) ?_
    rw [gathered_octet, gathered_octet, gathered_nil]
    omega
  · refine ⟨_, _, rfl, ?_⟩
    have hb : (UInt8.ofNat (c.toNat / 262144 % 8 + 0xf0)).toNat = c.toNat / 262144 % 8 + 0xf0 :=
      octet (by omega)
    have hx : (UInt8.ofNat (c.toNat / 4096 % 64 + 0x80)).toNat = c.toNat / 4096 % 64 + 0x80 :=
      octet (by omega)
    obtain ⟨low, high, hs, hlow, hhigh⟩ := start?_four (c.toNat / 262144 % 8)
      (c.toNat / 4096 % 64 + 0x80) (by omega) (by omega) (by omega) (by omega)
    refine .of_start (by omega) (hb ▸ hs) (.cons ⟨by omega, by omega⟩ (.octet (.octet .nil))) ?_
    rw [gathered_octet, gathered_octet, gathered_octet, gathered_nil]
    omega

theorem decodeFrom_eq_ok {octets : List UInt8} {cs : List Char} {position : Nat} :
    decodeFrom position none octets = .ok cs ↔ octets = encode cs := by
  induction cs generalizing octets position with
  | nil =>
    cases octets with
    | nil => exact ⟨fun _ => rfl, fun _ => rfl⟩
    | cons b octets =>
      rw [decodeFrom_cons]
      constructor
      · rintro ⟨_, _, _, _, _, _, _, h⟩
        cases h
      · nofun
  | cons c cs ih =>
    rw [encode, List.flatMap_cons, ← encode]
    cases octets with
    | nil =>
      obtain ⟨b, tail, he, -⟩ := sequence_encodeChar c
      rw [he]
      exact ⟨nofun, nofun⟩
    | cons b octets =>
      rw [decodeFrom_cons]
      constructor
      · rintro ⟨tail, rest, _, _, rfl, hs, h, ⟨⟩⟩
        rw [hs.encodeChar, ih.1 h, List.cons_append]
      · intro h
        obtain ⟨b', tail, he, hs⟩ := sequence_encodeChar c
        rw [he, List.cons_append] at h
        injection h with hb h
        subst hb h
        exact ⟨tail, encode cs, c, cs, rfl, hs, ih.2 rfl, rfl⟩

/-- A text is what octets decode to exactly if they are its encoding. -/
theorem decode_eq_ok {octets : List UInt8} {cs : List Char} :
    decode octets = .ok cs ↔ octets = encode cs := decodeFrom_eq_ok

end RuleLang.Text.Utf8
