import Mathlib.Data.Nat.Find
import RuleLang.Proofs.Decomposition

/-!
Escapes in strings. A character is escaped if the backslash before it is not. The first quote that
is not escaped closes a string, whose value is the text before it without the backslashes that
escape; a text without such a quote has no string in front. So any text at all is the value of a
string, written with a backslash before each quote and each backslash.
-/
namespace RuleLang

open Alphabet Lexer

def escapedAt (first : Bool) (cs : List Char) : Nat → Bool
  | 0 => first
  | i + 1 => cs[i]? = some escape && !escapedAt first cs i

/-- The first quote that is not escaped stands at this index. -/
structure FirstQuote (first : Bool) (cs : List Char) (i : Nat) : Prop where
  here : cs[i]? = some quote
  unescaped : escapedAt first cs i = false
  earlier : ∀ j < i, cs[j]? = some quote → escapedAt first cs j

/-- A text without the characters that escape those behind them. -/
def unescape (first : Bool) (cs : List Char) : List Char :=
  (List.range cs.length).filterMap fun i => if escapedAt first cs (i + 1) then none else cs[i]?

/-- A text with a backslash before each quote and each backslash. -/
def literal (cs : List Char) : List Char :=
  cs.flatMap fun c => if c = quote ∨ c = escape then [escape, c] else [c]

theorem escapedAt_cons (first : Bool) (c : Char) (cs : List Char) (i : Nat) :
    escapedAt first (c :: cs) (i + 1) = escapedAt (c = escape && !first) cs i := by
  induction i with
  | zero => simp [escapedAt]
  | succ i ih => rw [escapedAt, ih, escapedAt, List.getElem?_cons_succ]

theorem firstQuote_zero {first : Bool} {c : Char} {cs : List Char} :
    FirstQuote first (c :: cs) 0 ↔ c = quote ∧ first = false := by
  constructor
  · intro h
    exact ⟨Option.some.inj h.here, h.unescaped⟩
  · rintro ⟨rfl, rfl⟩
    exact ⟨rfl, rfl, nofun⟩

theorem firstQuote_succ {first : Bool} {c : Char} {cs : List Char} {i : Nat} :
    FirstQuote first (c :: cs) (i + 1) ↔
      (c = quote → first) ∧ FirstQuote (c = escape && !first) cs i := by
  constructor
  · intro h
    refine ⟨fun hc => h.earlier 0 (Nat.succ_pos i) (congrArg some hc), h.here, ?_, ?_⟩
    · rw [← escapedAt_cons]
      exact h.unescaped
    · intro j hj hq
      rw [← escapedAt_cons]
      exact h.earlier (j + 1) (Nat.succ_lt_succ hj) hq
  · rintro ⟨hc, h⟩
    refine ⟨h.here, ?_, ?_⟩
    · rw [escapedAt_cons]
      exact h.unescaped
    · intro j hj hq
      cases j with
      | zero => exact hc (Option.some.inj hq)
      | succ j =>
        rw [escapedAt_cons]
        exact h.earlier j (Nat.lt_of_succ_lt_succ hj) hq

theorem unescape_cons (first : Bool) (c : Char) (cs : List Char) :
    unescape first (c :: cs) =
      if c = escape && !first then unescape true cs else c :: unescape false cs := by
  have htail (next : Bool) (hn : (c = escape && !first) = next) :
      (List.range cs.length).filterMap ((fun i => if escapedAt first (c :: cs) (i + 1) then none
        else (c :: cs)[i]?) ∘ Nat.succ) = unescape next cs := by
    refine congrArg (List.filterMap · _) (funext fun i => ?_)
    simp only [Function.comp, Nat.succ_eq_add_one, escapedAt_cons, hn, List.getElem?_cons_succ]
  rw [unescape, List.length_cons, List.range_succ_eq_map, List.filterMap_cons, List.filterMap_map,
    escapedAt_cons, escapedAt]
  cases hn : (c = escape && !first) with
  | true => exact htail true hn
  | false => exact congrArg (c :: ·) (htail false hn)

theorem stringRun?_eq_some {first : Bool} {cs body : List Char} {n : Nat} :
    stringRun? first cs = some (body, n) ↔
      ∃ i, FirstQuote first cs i ∧ body = unescape first (cs.take i) ∧ n = i + 1 := by
  induction cs generalizing first body n with
  | nil =>
    constructor
    · nofun
    · rintro ⟨i, h, -⟩
      cases h.here
  | cons c cs ih =>
    -- the first character is a quote that closes, or the text behind it decides
    have hlater {next : Bool} (hn : (c = escape && !first) = next) (hq : c = quote → first)
        (f : List Char → List Char)
        (hf : ∀ i, unescape first ((c :: cs).take (i + 1)) = f (unescape next (cs.take i))) :
        (stringRun? next cs).map (fun r => (f r.1, r.2 + 1)) = some (body, n) ↔
          ∃ i, FirstQuote first (c :: cs) i ∧ body = unescape first ((c :: cs).take i) ∧
            n = i + 1 := by
      rw [Option.map_eq_some_iff]
      constructor
      · rintro ⟨⟨inner, m⟩, hr, heq⟩
        obtain ⟨rfl, rfl⟩ := Prod.mk.inj heq
        obtain ⟨i, hi, rfl, rfl⟩ := ih.1 hr
        exact ⟨i + 1, firstQuote_succ.2 ⟨hq, hn ▸ hi⟩, (hf i).symm, rfl⟩
      · rintro ⟨i, hi, rfl, rfl⟩
        cases i with
        | zero =>
          obtain ⟨hc, hfirst⟩ := firstQuote_zero.1 hi
          rw [hq hc] at hfirst
          cases hfirst
        | succ i =>
          exact ⟨_, ih.2 ⟨i, hn ▸ (firstQuote_succ.1 hi).2, rfl, rfl⟩, by rw [hf i]⟩
    rw [stringRun?]
    split_ifs with hfirst he hq
    · have hn : (c = escape && !first) = false := by simp [hfirst]
      exact hlater hn (fun _ => hfirst) (c :: ·) fun i => by
        rw [List.take_succ_cons, unescape_cons, hn]
        rfl
    · have hn : (c = escape && !first) = true := by simp [he, hfirst]
      have hne : escape ≠ quote := by decide
      exact hlater hn (fun hc => absurd (he.symm.trans hc) hne) id fun i => by
        rw [List.take_succ_cons, unescape_cons, hn]
        rfl
    · have hzero : FirstQuote first (c :: cs) 0 :=
        firstQuote_zero.2 ⟨hq, Bool.eq_false_iff.2 hfirst⟩
      constructor
      · intro h
        obtain ⟨rfl, rfl⟩ := Prod.mk.inj (Option.some.inj h)
        exact ⟨0, hzero, rfl, rfl⟩
      · rintro ⟨i, hi, rfl, rfl⟩
        cases i with
        | zero => rfl
        | succ i => exact absurd ((firstQuote_succ.1 hi).1 hq) hfirst
    · have hn : (c = escape && !first) = false := by simp [he]
      exact hlater hn (fun hc => absurd hc hq) (c :: ·) fun i => by
        rw [List.take_succ_cons, unescape_cons, hn]
        rfl

theorem exists_firstQuote {first : Bool} {cs : List Char} :
    (∃ i, FirstQuote first cs i) ↔ ∃ i, cs[i]? = some quote ∧ escapedAt first cs i = false := by
  constructor
  · rintro ⟨i, h⟩
    exact ⟨i, h.here, h.unescaped⟩
  · intro h
    refine ⟨Nat.find h, (Nat.find_spec h).1, (Nat.find_spec h).2, fun j hj hq => ?_⟩
    exact eq_true_of_ne_false fun hf => Nat.find_min h hj ⟨hq, hf⟩

theorem stringRun?_eq_none {first : Bool} {cs : List Char}
    (h : ∀ i, cs[i]? = some quote → escapedAt first cs i) : stringRun? first cs = none := by
  rw [Option.eq_none_iff_forall_ne_some]
  rintro ⟨body, n⟩ hrun
  obtain ⟨i, hi, -⟩ := stringRun?_eq_some.1 hrun
  have hescaped := h i hi.here
  rw [hi.unescaped] at hescaped
  cases hescaped

theorem quoted_literal (cs : List Char) : Quoted (literal cs) cs := by
  induction cs with
  | nil => exact .nil
  | cons c cs ih =>
    rw [literal, List.flatMap_cons]
    split_ifs with hc
    · exact .escaped ih
    · exact .plain (fun he => hc (.inr he)) (fun hq => hc (.inl hq)) ih

/-- Reading a string whose opening quote is behind the cursor. It succeeds if and only if some quote
is not escaped; then its value is the text before the first such quote without the backslashes that
escape, and the cursor stands right behind that quote. Otherwise the opening quote is blamed, and
the cursor is at the end. So every text is the value of its literal, whatever follows. -/
theorem strings_decoded :
    (∀ (opening : Position) (c : Cursor),
      ((∃ s c', readString opening c = .ok s c') ↔
        ∃ i, c.rest[i]? = some quote ∧ escapedAt false c.rest i = false) ∧
      (∀ i, FirstQuote false c.rest i → ∃ c',
        readString opening c = .ok (String.ofList (unescape false (c.rest.take i))) c' ∧
        c' = c.advance (i + 1) ∧ c.rest = c.rest.take i ++ quote :: c'.rest) ∧
      ((∀ i, c.rest[i]? = some quote → escapedAt false c.rest i) → ∃ e c',
        readString opening c = .error (.malformed e) c' ∧ e.position = opening ∧
        e.message = "Unterminated string literal" ∧
        c' = c.advance c.rest.length ∧ c'.rest = [])) ∧
    ∀ (s : String) (behind : List Char) (c : Cursor),
      c.rest = quote :: (literal s.toList ++ quote :: behind) →
        ∃ c', readToken c = .ok (some ⟨.string s, c.position⟩) c' ∧
          c' = c.advance ((literal s.toList).length + 2) ∧ c'.rest = behind := by
  refine ⟨fun opening c => ⟨?_, fun i hi => ?_, fun hno => ?_⟩, fun s behind c hc => ?_⟩
  · rw [← exists_firstQuote, readString_eq]
    cases hrun : stringRun? false c.rest with
    | some r =>
      obtain ⟨i, hi, -⟩ := stringRun?_eq_some.1 hrun
      exact ⟨fun _ => ⟨i, hi⟩, fun _ => ⟨_, _, rfl⟩⟩
    | none =>
      refine ⟨nofun, fun ⟨i, hi⟩ => ?_⟩
      have hsome := stringRun?_eq_some.2 ⟨i, hi, rfl, rfl⟩
      rw [hrun] at hsome
      cases hsome
  · refine ⟨c.advance (i + 1), ?_, rfl, ?_⟩
    · rw [readString_eq, stringRun?_eq_some.2 ⟨i, hi, rfl, rfl⟩]
    · obtain ⟨hlt, hquote⟩ := List.getElem?_eq_some_iff.1 hi.here
      calc c.rest
        _ = c.rest.take i ++ c.rest.drop i := (List.take_append_drop i c.rest).symm
        _ = c.rest.take i ++ quote :: c.rest.drop (i + 1) := by
          rw [List.drop_eq_getElem_cons hlt, hquote]
  · refine ⟨⟨opening, .unterminatedString⟩, c.advance c.rest.length, ?_, rfl, rfl, rfl, ?_⟩
    · rw [readString_eq, stringRun?_eq_none hno]
    · exact List.drop_length
  · have hspelled := Spelling.string (quoted_literal s.toList)
    rw [String.ofList_toList] at hspelled
    have hsplit : c.rest = [] ++ quote :: (literal s.toList ++ [quote]) ++ behind := by
      rw [hc]
      simp
    have hlength : ([] ++ quote :: (literal s.toList ++ [quote])).length =
        (literal s.toList).length + 2 := by simp
    refine ⟨_, readToken_spelling hsplit .nil hspelled trivial, by rw [hlength], ?_⟩
    exact rest_advance hsplit

theorem strings_decoded_escapes :
    let closed : Cursor := .ofChars ['a', '\\', '"', 'b', '\\', '\\', '"', 'c']
    let opened : Cursor := .ofChars ['a', '\\', '"']
    let written : Cursor := .ofChars ('"' :: (literal "\"\\\n".toList ++ ['"', 'c']))
    (FirstQuote false closed.rest 6 ∧ ∃ c', readString ⟨1, 2⟩ closed = .ok "a\"b\\" c' ∧
      c' = closed.advance 7 ∧ closed.rest = closed.rest.take 6 ++ quote :: c'.rest) ∧
    ((∀ i, opened.rest[i]? = some quote → escapedAt false opened.rest i) ∧ ∃ e c',
      readString ⟨1, 2⟩ opened = .error (.malformed e) c' ∧ e.position = ⟨1, 2⟩ ∧
      e.message = "Unterminated string literal" ∧ c' = opened.advance 3 ∧ c'.rest = []) ∧
    ∃ c', readToken written = .ok (some ⟨.string "\"\\\n", .start⟩) c' ∧
      c' = written.advance 7 ∧ c'.rest = ['c'] := by
  intro closed opened written
  have hclosed : FirstQuote false closed.rest 6 := ⟨rfl, rfl, by decide⟩
  have hopened : ∀ i, opened.rest[i]? = some quote → escapedAt false opened.rest i := by
    have hall : ∀ i < 3, opened.rest[i]? = some quote → escapedAt false opened.rest i := by decide
    exact fun i hi => hall i (List.getElem?_eq_some_iff.1 hi).1 hi
  exact ⟨⟨hclosed, (strings_decoded.1 ⟨1, 2⟩ closed).2.1 6 hclosed⟩,
    ⟨hopened, (strings_decoded.1 ⟨1, 2⟩ opened).2.2 hopened⟩,
    strings_decoded.2 "\"\\\n" ['c'] written rfl⟩

end RuleLang
