import Mathlib.Tactic.Common
import RuleLang.Json.Write

/-!
Texts of documents. A character stands for itself or is escaped, by a letter or by its UTF-16 units
in hexadecimal digits; a unit of a pair is read with the other one, and never alone. A text that is
written reads back up to the quote behind it, and holds no character that has to be escaped.
-/
namespace RuleLang.Json

def hexValue? (c : Char) : Option Nat :=
  if '0' ≤ c ∧ c ≤ '9' then some (c.toNat - '0'.toNat)
  else if 'a' ≤ c ∧ c ≤ 'f' then some (c.toNat - 'a'.toNat + 10)
  else if 'A' ≤ c ∧ c ≤ 'F' then some (c.toNat - 'A'.toNat + 10)
  else none

def unit? : List Char → Option (Nat × List Char)
  | a :: b :: c :: d :: rest => do
    let high := (← hexValue? a) * 16 + (← hexValue? b)
    let low := (← hexValue? c) * 16 + (← hexValue? d)
    return (high * 256 + low, rest)
  | _ => none

def letter? (c : Char) : Option Char :=
  [('"', '"'), ('\\', '\\'), ('/', '/'), ('b', '\x08'), ('f', '\x0c'), ('n', '\n'), ('r', '\r'),
    ('t', '\t')].lookup c

/-- The second unit of a pair, with the character that the pair makes. -/
def pair? (first : Nat) : List Char → Option (Char × List Char)
  | '\\' :: 'u' :: rest => do
    let (second, rest) ← unit? rest
    if 0xdc00 ≤ second ∧ second < 0xe000 then
      return (Char.ofNat (0x10000 + (first - 0xd800) * 0x400 + (second - 0xdc00)), rest)
    else none
  | _ => none

def character? : List Char → Option (Char × List Char)
  | '\\' :: 'u' :: rest => do
    let (n, rest) ← unit? rest
    if 0xd800 ≤ n ∧ n < 0xdc00 then pair? n rest
    else if 0xdc00 ≤ n ∧ n < 0xe000 then none
    else return (Char.ofNat n, rest)
  | '\\' :: c :: rest => (letter? c).map (·, rest)
  | c :: rest => if c = '\\' ∨ c.toNat < 0x20 then none else some (c, rest)
  | [] => none

def characters? : Nat → List Char → Option (List Char × List Char)
  | 0, _ => none
  | left + 1, cs =>
    if cs.head? = some '"' then some ([], cs.tail)
    else do
      let (c, rest) ← character? cs
      let (more, rest) ← characters? left rest
      return (c :: more, rest)

def text? (cs : List Char) : Option (String × List Char) :=
  (characters? cs.length cs).map fun (chars, rest) => (String.ofList chars, rest)

theorem hexValue?_digit {n : Nat} (h : n < 16) : hexValue? (Text.Hex.digit n) = some n := by
  have hall : ∀ n < 16, hexValue? (Text.Hex.digit n) = some n := by decide
  exact hall n h

theorem unit?_fixed {n : Nat} (h : n < 0x10000) (rest : List Char) :
    unit? (Text.Hex.fixed 4 n ++ rest) = some (n, rest) := by
  have hdigit (k : Nat) : hexValue? (Text.Hex.digit (k % 16)) = some (k % 16) :=
    hexValue?_digit (Nat.mod_lt k (by decide))
  simp only [Text.Hex.fixed, List.nil_append, List.cons_append, unit?, hdigit,
    Option.bind_eq_bind, Option.bind_some, Option.pure_def, Option.some.injEq, Prod.mk.injEq,
    and_true]
  omega

theorem character?_single {n : Nat} (h : n < 0xd800 ∨ 0xe000 ≤ n ∧ n < 0x10000)
    (rest : List Char) : character? (unit n ++ rest) = some (Char.ofNat n, rest) := by
  rw [unit, List.cons_append, List.cons_append, character?, unit?_fixed (by omega)]
  simp only [Option.bind_eq_bind, Option.bind_some]
  rw [if_neg (by omega), if_neg (by omega)]
  rfl

theorem character?_pair {first second : Nat} (hf : 0xd800 ≤ first ∧ first < 0xdc00)
    (hs : 0xdc00 ≤ second ∧ second < 0xe000) (rest : List Char) :
    character? (unit first ++ (unit second ++ rest)) =
      some (Char.ofNat (0x10000 + (first - 0xd800) * 0x400 + (second - 0xdc00)), rest) := by
  rw [unit, List.cons_append, List.cons_append, character?, unit?_fixed (by omega)]
  simp only [Option.bind_eq_bind, Option.bind_some]
  rw [if_pos hf, unit, List.cons_append, List.cons_append, pair?, unit?_fixed (by omega)]
  simp only [Option.bind_eq_bind, Option.bind_some]
  rw [if_pos hs]
  rfl

theorem character?_units (c : Char) (rest : List Char) :
    character? (units c ++ rest) = some (c, rest) := by
  have hvalid : c.toNat.isValidChar := c.valid
  unfold Nat.isValidChar at hvalid
  unfold units
  split_ifs with h
  · rw [character?_single (by omega), Char.ofNat_toNat]
  · rw [List.append_assoc, character?_pair (by omega) (by omega), Nat.add_sub_cancel_left,
      Nat.add_sub_cancel_left, Nat.add_assoc, Nat.div_add_mod', Nat.add_sub_of_le (by omega),
      Char.ofNat_toNat]

theorem character?_plain {c : Char} (hc : c ≠ '\\') (h : 0x20 ≤ c.toNat) (rest : List Char) :
    character? (c :: rest) = some (c, rest) := by
  have hplain : ¬ (c = '\\' ∨ c.toNat < 0x20) := by
    rintro (h' | h')
    · exact hc h'
    · omega
  rw [character?, if_neg hplain]
  · exact fun _ hc' => absurd hc' hc
  · exact fun _ _ hc' => absurd hc' hc

theorem character?_escaped (c : Char) (rest : List Char) :
    character? (escaped c ++ rest) = some (c, rest) := by
  unfold escaped
  split_ifs with h1 h2 h3 h4 h5 h6 h7
  · rcases h1 with rfl | rfl <;> rfl
  · subst h2; rfl
  · subst h3; rfl
  · subst h4; rfl
  · subst h5; rfl
  · subst h6; rfl
  · exact character?_plain (not_or.1 h1).2 h7.1 rest
  · exact character?_units c rest

theorem escaped_head (c : Char) : ∃ x xs, escaped c = x :: xs ∧ x ≠ '"' := by
  unfold escaped units unit
  split_ifs with h1 h2 h3 h4 h5 h6 h7
  iterate 6 exact ⟨_, _, rfl, by decide⟩
  · exact ⟨_, _, rfl, (not_or.1 h1).1⟩
  · exact ⟨_, _, rfl, by decide⟩
  · exact ⟨_, _, rfl, by decide⟩

theorem characters?_escaped (cs rest : List Char) {left : Nat} (h : cs.length < left) :
    characters? left (cs.flatMap escaped ++ '"' :: rest) = some (cs, rest) := by
  induction cs generalizing left with
  | nil =>
    obtain ⟨left, rfl⟩ := Nat.exists_eq_add_of_lt h
    rfl
  | cons c cs ih =>
    cases left with
    | zero => cases h
    | succ left =>
      obtain ⟨x, xs, hx, hne⟩ := escaped_head c
      have hhead : (escaped c ++ (cs.flatMap escaped ++ '"' :: rest)).head? ≠ some '"' := by
        rw [hx]
        simpa using hne
      rw [List.flatMap_cons, List.append_assoc, characters?, if_neg hhead, character?_escaped]
      simp only [Option.bind_eq_bind, Option.bind_some]
      rw [ih (Nat.lt_of_succ_lt_succ h)]
      rfl

theorem length_le_escaped (cs : List Char) : cs.length ≤ (cs.flatMap escaped).length := by
  induction cs with
  | nil => exact Nat.le_refl 0
  | cons c cs ih =>
    obtain ⟨x, xs, hx, -⟩ := escaped_head c
    rw [List.flatMap_cons, List.length_append, hx, List.length_cons, List.length_cons]
    omega

theorem text?_quoted (s : String) (rest : List Char) :
    ∃ body, (quoted s).toList ++ rest = '"' :: body ∧ text? body = some (s, rest) := by
  refine ⟨s.toList.flatMap escaped ++ '"' :: rest, ?_, ?_⟩
  · rw [quoted, String.toList_ofList]
    simp
  · have hlength : s.toList.length < (s.toList.flatMap escaped ++ '"' :: rest).length := by
      rw [List.length_append, List.length_cons]
      have hle := length_le_escaped s.toList
      omega
    rw [text?, characters?_escaped _ _ hlength]
    simp

def IsPrintable (c : Char) : Prop := 0x20 ≤ c.toNat ∧ c.toNat ≤ 0x7e

theorem printable_of_all {cs : List Char}
    (h : cs.all fun c => 0x20 ≤ c.toNat && c.toNat ≤ 0x7e) : ∀ c ∈ cs, IsPrintable c := by
  intro c hc
  simpa [IsPrintable] using List.all_eq_true.1 h c hc

theorem digit_printable (n : Nat) (h : n < 16) : IsPrintable (Text.Hex.digit n) := by
  have hall : ∀ n < 16, 0x20 ≤ (Text.Hex.digit n).toNat ∧ (Text.Hex.digit n).toNat ≤ 0x7e := by
    decide
  exact hall n h

theorem unit_printable (n : Nat) : ∀ c ∈ unit n, IsPrintable c := by
  have hdigit (k : Nat) : IsPrintable (Text.Hex.digit (k % 16)) :=
    digit_printable _ (Nat.mod_lt k (by decide))
  have hmark : IsPrintable '\\' ∧ IsPrintable 'u' := by
    unfold IsPrintable
    decide
  simp only [unit, Text.Hex.fixed, List.nil_append, List.cons_append, List.forall_mem_cons]
  exact ⟨hmark.1, hmark.2, hdigit _, hdigit _, hdigit _, hdigit _, List.forall_mem_nil _⟩

theorem escaped_printable (c : Char) : ∀ x ∈ escaped c, IsPrintable x := by
  have hletters : ∀ l ∈ ['"', '\\', 'n', 'r', 't', 'b', 'f'], IsPrintable l :=
    printable_of_all (by decide)
  have hletter : ∀ l ∈ ['"', '\\', 'n', 'r', 't', 'b', 'f'], ∀ x ∈ ['\\', l], IsPrintable x :=
    fun l hl => List.forall_mem_cons.2
      ⟨hletters _ (by decide), List.forall_mem_singleton.2 (hletters l hl)⟩
  unfold escaped
  split_ifs with h1 h2 h3 h4 h5 h6 h7
  · rcases h1 with rfl | rfl <;> exact hletter _ (by decide)
  iterate 5 exact hletter _ (by decide)
  · rw [List.forall_mem_singleton]
    exact ⟨h7.1, by omega⟩
  · unfold units
    split_ifs
    · exact unit_printable _
    · exact List.forall_mem_append.2 ⟨unit_printable _, unit_printable _⟩

theorem quoted_printable (s : String) : ∀ c ∈ (quoted s).toList, IsPrintable c := by
  have hquote : IsPrintable '"' := by
    unfold IsPrintable
    decide
  rw [quoted, String.toList_ofList, List.forall_mem_cons, List.forall_mem_append,
    List.forall_mem_singleton, List.forall_mem_flatMap]
  exact ⟨hquote, fun c _ => escaped_printable c, hquote⟩

end RuleLang.Json
