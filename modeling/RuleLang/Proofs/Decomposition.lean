import RuleLang.Proofs.Progress

/-!
What tokenizing computes. A text is cut into lexemes and gaps: every lexeme is spelled by the
characters between two gaps, and none could go on with the character behind it. The cut is stated
here on texts alone. A text has such a cut up to its end, or up to a place where nothing can
start, and reading follows the cut that there is.
-/
namespace RuleLang

open Alphabet Lexer

inductive Gap : List Char → Prop
  | nil : Gap []
  | blank {c : Char} {cs : List Char} (hc : isBlank c) (hcs : Gap cs) : Gap (c :: cs)
  | comment {body cs : List Char} (hb : lineFeed ∉ body) (hcs : Gap cs) :
      Gap (commentMark :: (body ++ lineFeed :: cs))

/-- What may stand behind the last lexeme, where the end of the text can cut a comment off. -/
inductive FinalGap : List Char → Prop
  | whole {gap : List Char} (hg : Gap gap) : FinalGap gap
  | cutOff {gap body : List Char} (hg : Gap gap) (hb : lineFeed ∉ body) :
      FinalGap (gap ++ commentMark :: body)

/-- What stands between two quotes, and the text that it stands for. -/
inductive Quoted : List Char → List Char → Prop
  | nil : Quoted [] []
  | plain {c : Char} {raw body : List Char} (he : c ≠ escape) (hq : c ≠ quote)
      (h : Quoted raw body) : Quoted (c :: raw) (c :: body)
  | escaped {c : Char} {raw body : List Char} (h : Quoted raw body) :
      Quoted (escape :: c :: raw) (c :: body)

inductive Word : List Char → Prop
  | run {c : Char} {cs : List Char} (hc : isIdentifierStart c) (hcs : cs.all isIdentifierChar) :
      Word (c :: cs)

/-- The characters that a lexeme can be written with. -/
inductive Spelling : List Char → Lexeme → Prop
  | string {raw body : List Char} (h : Quoted raw body) :
      Spelling (quote :: (raw ++ [quote])) (.string (String.ofList body))
  | whole {ds : List Char} (hne : ds ≠ []) (hds : ds.all isDigit) :
      Spelling ds (.number (.ofDecimal false ⟨Decimal.ofDigits ds, 0⟩))
  | pointed {ds places : List Char} (hne : ds ≠ []) (hds : ds.all isDigit)
      (hps : places.all isDigit) :
      Spelling (ds ++ point :: places)
        (.number (.ofDecimal false ⟨Decimal.ofDigits (ds ++ places), -places.length⟩))
  | keyword {x : List Char} (hx : Word x) (hk : String.ofList x ∈ Vocabulary.keywords) :
      Spelling x (.keyword (String.ofList x))
  | identifier {x : List Char} (hx : Word x) (hk : String.ofList x ∉ Vocabulary.keywords) :
      Spelling x (.identifier (String.ofList x))
  | punctuation {c : Char} (hc : isPunctuation c) :
      Spelling [c] (.punctuation (String.singleton c))
  | operator {x : List Char} (hne : x ≠ []) (hx : x.all isOperatorChar) :
      Spelling x (.operator (String.ofList x))

/-- A lexeme ends where the text behind its characters does not go on with it. -/
def Lexeme.Ends (x behind : List Char) : Lexeme → Prop
  | number _ => ∀ c ∈ behind.head?, ¬ isDigit c ∧ (point ∉ x → c ≠ point)
  | identifier _ | keyword _ => ∀ c ∈ behind.head?, ¬ isIdentifierChar c
  | operator _ => ∀ c ∈ behind.head?, ¬ isOperatorChar c
  | string _ | punctuation _ => True

/-- The text at a place cut into tokens, each behind its gap, as far as another place with the
text that is left there. -/
inductive Munches : Position → List Char → List Token → Position → List Char → Prop
  | nil (p : Position) (cs : List Char) : Munches p cs [] p cs
  | cons {p q : Position} {gap x cs behind : List Char} {y : Lexeme} {ts : List Token}
      (hg : Gap gap) (hx : Spelling x y) (he : y.Ends x cs)
      (h : Munches (p.afterAll (gap ++ x)) cs ts q behind) :
      Munches p (gap ++ x ++ cs) (⟨y, p.afterAll gap⟩ :: ts) q behind

/-- Text that neither a lexeme nor a blank nor a comment starts, and the reason. -/
inductive Breaks : List Char → Cause → Prop
  | illegal {c : Char} {cs : List Char} (hb : ¬ isBlank c) (hm : c ≠ commentMark)
      (hc : ∀ x y, ¬ Spelling (c :: x) y) : Breaks (c :: cs) (.illegalCharacter c)
  | unterminated {cs : List Char}
      (hc : ∀ raw body behind, Quoted raw body → cs ≠ raw ++ quote :: behind) :
      Breaks (quote :: cs) .unterminatedString

theorem Munches.taken {p q : Position} {cs behind : List Char} {ts : List Token}
    (h : Munches p cs ts q behind) : ∃ taken, cs = taken ++ behind ∧ q = p.afterAll taken := by
  induction h with
  | nil p cs => exact ⟨[], rfl, rfl⟩
  | @cons p q gap x cs behind y ts _ _ _ _ ih =>
    obtain ⟨taken, rfl, rfl⟩ := ih
    exact ⟨gap ++ x ++ taken, by simp only [List.append_assoc],
      (p.afterAll_append (gap ++ x) taken).symm⟩

section Gaps

theorem gapLength_comment {body : List Char} (hb : lineFeed ∉ body) (behind : List Char) :
    gapLength true (body ++ behind) = body.length + gapLength true behind := by
  induction body with
  | nil => rw [List.nil_append, List.length_nil, Nat.zero_add]
  | cons c body ih =>
    obtain ⟨hc, hb⟩ := not_or.1 (List.mem_cons.not.1 hb)
    have hd : decide (c ≠ lineFeed) = true := decide_eq_true (Ne.symm hc)
    rw [List.cons_append, gapLength, if_pos rfl, hd, ih hb, List.length_cons]
    omega

theorem gapLength_mark {body : List Char} (hb : lineFeed ∉ body) (behind : List Char) :
    gapLength false (commentMark :: (body ++ behind)) =
      body.length + gapLength true behind + 1 := by
  rw [gapLength, if_neg (by decide), if_neg (by decide), if_pos rfl, gapLength_comment hb]

theorem gapLength_append {gap : List Char} (hg : Gap gap) (behind : List Char) :
    gapLength false (gap ++ behind) = gap.length + gapLength false behind := by
  induction hg with
  | nil => rw [List.nil_append, List.length_nil, Nat.zero_add]
  | blank hc _ ih =>
    rw [List.cons_append, gapLength, if_neg (by decide), if_pos hc, ih, List.length_cons]
    omega
  | @comment body cs hb _ ih =>
    have hl : gapLength true (lineFeed :: (cs ++ behind)) = gapLength false (cs ++ behind) + 1 :=
      rfl
    rw [List.cons_append, List.append_assoc, gapLength_mark hb, List.cons_append, hl, ih]
    simp only [List.length_cons, List.length_append]
    omega

theorem gapLength_final {gap : List Char} (hg : FinalGap gap) :
    gapLength false gap = gap.length := by
  cases hg with
  | whole hg => simpa [gapLength] using gapLength_append hg []
  | @cutOff gap body hg hb =>
    have hm := gapLength_mark hb []
    rw [List.append_nil, gapLength] at hm
    rw [gapLength_append hg, hm, List.length_append, List.length_cons]

theorem gapLength_stop {c : Char} (hb : ¬ isBlank c) (hm : c ≠ commentMark) (cs : List Char) :
    gapLength false (c :: cs) = 0 := by
  rw [gapLength, if_neg (by decide), if_neg hb, if_neg hm]

theorem gap_or_more (cs : List Char) :
    FinalGap cs ∨ ∃ gap c behind, cs = gap ++ c :: behind ∧ Gap gap ∧ ¬ isBlank c ∧
      c ≠ commentMark := by
  induction hn : cs.length using Nat.strongRecOn generalizing cs with
  | ind n ih =>
    -- what precedes a shorter text with such a gap belongs to the gap
    have hextend : ∀ pre rest, cs = pre ++ rest → rest.length < n →
        (∀ gap, Gap gap → Gap (pre ++ gap)) →
        FinalGap cs ∨ ∃ gap c behind, cs = gap ++ c :: behind ∧ Gap gap ∧ ¬ isBlank c ∧
          c ≠ commentMark := by
      intro pre rest hcs hlt hpre
      subst hcs
      rcases ih rest.length hlt rest rfl with hf | ⟨gap, c, behind, rfl, hg, hb, hm⟩
      · left
        cases hf with
        | whole hg => exact .whole (hpre _ hg)
        | cutOff hg hb =>
          rw [← List.append_assoc]
          exact .cutOff (hpre _ hg) hb
      · exact .inr ⟨pre ++ gap, c, behind, by rw [List.append_assoc], hpre _ hg, hb, hm⟩
    cases cs with
    | nil => exact .inl (.whole .nil)
    | cons c cs =>
      rw [List.length_cons] at hn
      by_cases hb : isBlank c
      · exact hextend [c] cs rfl (by omega) fun _ hg => .blank hb hg
      · by_cases hm : c = commentMark
        · subst hm
          by_cases hl : lineFeed ∈ cs
          · obtain ⟨body, rest, rfl, hbody⟩ := List.eq_append_cons_of_mem hl
            rw [List.length_append, List.length_cons] at hn
            refine hextend (commentMark :: (body ++ [lineFeed])) rest (by simp) (by omega) ?_
            intro gap hg
            simpa using Gap.comment hbody hg
          · exact .inl (.cutOff .nil hl)
        · exact .inr ⟨[], c, cs, rfl, .nil, hb, hm⟩

end Gaps

section Strings

theorem stringRun?_quoted {raw body : List Char} (h : Quoted raw body) (behind : List Char) :
    stringRun? false (raw ++ quote :: behind) = some (body, raw.length + 1) := by
  induction h with
  | nil => rfl
  | plain he hq _ ih =>
    rw [List.cons_append, stringRun?, if_neg (by decide), if_neg he, if_neg hq, ih]
    rfl
  | escaped _ ih =>
    rw [List.cons_append, List.cons_append, stringRun?, if_neg (by decide), if_pos rfl,
      stringRun?, if_pos rfl, ih]
    rfl

theorem quoted_of_stringRun? {escaped : Bool} {cs body : List Char} {n : Nat}
    (h : stringRun? escaped cs = some (body, n)) :
    ∃ raw behind, cs = raw ++ quote :: behind ∧
      Quoted (if escaped then escape :: raw else raw) body := by
  induction cs generalizing escaped body n with
  | nil => cases h
  | cons c cs ih =>
    have htail : ∀ (e : Bool) (f : List Char → List Char),
        (stringRun? e cs).map (fun r => (f r.1, r.2 + 1)) = some (body, n) →
        ∃ raw behind inner, cs = raw ++ quote :: behind ∧
          Quoted (if e then escape :: raw else raw) inner ∧ body = f inner := by
      intro e f hm
      obtain ⟨⟨inner, m⟩, hr, heq⟩ := Option.map_eq_some_iff.1 hm
      obtain ⟨raw, behind, hcs, hraw⟩ := ih hr
      exact ⟨raw, behind, inner, hcs, hraw, (Prod.mk.inj heq).1.symm⟩
    rw [stringRun?] at h
    cases escaped with
    | true =>
      obtain ⟨raw, behind, inner, rfl, hraw, rfl⟩ := htail false (c :: ·) h
      exact ⟨c :: raw, behind, rfl, .escaped hraw⟩
    | false =>
      rw [if_neg (by decide)] at h
      split_ifs at h with he hq
      · obtain ⟨raw, behind, inner, rfl, hraw, rfl⟩ := htail true id h
        exact ⟨c :: raw, behind, rfl, he ▸ hraw⟩
      · obtain ⟨rfl, -⟩ := Prod.mk.inj (Option.some.inj h)
        exact ⟨[], cs, hq ▸ rfl, .nil⟩
      · obtain ⟨raw, behind, inner, rfl, hraw, rfl⟩ := htail false (c :: ·) h
        exact ⟨c :: raw, behind, rfl, .plain he hq hraw⟩

end Strings

section Lexemes

theorem numeralRun_whole {ds behind : List Char} (hds : ds.all isDigit)
    (hb : ∀ c ∈ behind.head?, ¬ isDigit c ∧ c ≠ point) : numeralRun (ds ++ behind) = ds := by
  have hs := span_run ds hds behind fun c hc => (hb c hc).1
  rw [numeralRun, hs.1, hs.2]
  cases behind with
  | nil => rfl
  | cons c cs => exact if_neg (hb c rfl).2

theorem numeralRun_pointed {ds places behind : List Char} (hds : ds.all isDigit)
    (hps : places.all isDigit) (hb : ∀ c ∈ behind.head?, ¬ isDigit c) :
    numeralRun (ds ++ point :: (places ++ behind)) = ds ++ point :: places := by
  have hs := span_run ds hds (point :: (places ++ behind)) (by simp [isDigit, digits, point])
  rw [numeralRun, hs.1, hs.2]
  dsimp only
  rw [if_pos rfl, (span_run places hps behind hb).1]

def lexemeStarts : List Char :=
  quote :: (digits ++ identifierStarts ++ punctuationMarks ++ operatorChars)

theorem not_gap_of_start {c : Char} (h : c ∈ lexemeStarts) : ¬ isBlank c ∧ c ≠ commentMark := by
  have hall : lexemeStarts.all fun d => !isBlank d && d != commentMark := by decide
  simpa using List.all_eq_true.1 hall c h

theorem readLexeme_digit {c : Char} (h : isDigit c) (p : Position) :
    readLexeme p c = .number <$> readNumber := by
  have hall : digits.all (· != quote) := by decide
  have hq : c ≠ quote := by simpa using List.all_eq_true.1 hall c (of_decide_eq_true h)
  rw [readLexeme, if_neg hq, if_pos h]

theorem readLexeme_word {c : Char} (h : isIdentifierStart c) (p : Position) :
    readLexeme p c = .ofWord <$> readWord := by
  have hall : identifierStarts.all fun d => d != quote && !isDigit d := by decide
  obtain ⟨hq, hd⟩ : c ≠ quote ∧ ¬ isDigit c := by
    simpa using List.all_eq_true.1 hall c (of_decide_eq_true h)
  rw [readLexeme, if_neg hq, if_neg hd, if_pos h]

theorem readLexeme_punctuation {c : Char} (h : isPunctuation c) (p : Position) :
    readLexeme p c = (do skip 1; return .punctuation (String.singleton c)) := by
  have hall : punctuationMarks.all fun d => d != quote && !(isDigit d || isIdentifierStart d) := by
    decide
  obtain ⟨hq, hd, hi⟩ : c ≠ quote ∧ ¬ isDigit c ∧ ¬ isIdentifierStart c := by
    simpa using List.all_eq_true.1 hall c (of_decide_eq_true h)
  rw [readLexeme, if_neg hq, if_neg hd, if_neg hi, if_pos h]

theorem readLexeme_operator {c : Char} (h : isOperatorChar c) (p : Position) :
    readLexeme p c = .operator <$> readOperator := by
  have hall : operatorChars.all fun d =>
      d != quote && !(isDigit d || isIdentifierStart d || isPunctuation d) := by
    decide
  obtain ⟨hq, ⟨hd, hi⟩, hp⟩ :
      c ≠ quote ∧ (¬ isDigit c ∧ ¬ isIdentifierStart c) ∧ ¬ isPunctuation c := by
    simpa using List.all_eq_true.1 hall c (of_decide_eq_true h)
  rw [readLexeme, if_neg hq, if_neg hd, if_neg hi, if_neg hp, if_pos h]

theorem readLexeme_illegal {c : Char} (h : c ∉ lexemeStarts) (p : Position) :
    readLexeme p c = throw (.malformed ⟨p, .illegalCharacter c⟩) := by
  simp only [lexemeStarts, List.mem_cons, List.mem_append, not_or] at h
  obtain ⟨hq, ⟨⟨hd, hi⟩, hp⟩, ho⟩ := h
  simp only [readLexeme, isDigit, isIdentifierStart, isPunctuation, isOperatorChar, hq, hd, hi,
    hp, ho, decide_false, Bool.false_eq_true, if_false]

theorem head_of_all {p : Char → Bool} {c : Char} {cs : List Char} (h : (c :: cs).all p) : p c := by
  rw [List.all_cons, Bool.and_eq_true] at h
  exact h.1

theorem all_append {p : Char → Bool} {xs ys : List Char} (hx : xs.all p) (hy : ys.all p) :
    (xs ++ ys).all p := by
  rw [List.all_append, hx, hy]
  rfl

theorem Spelling.start {x : List Char} {y : Lexeme} (h : Spelling x y) :
    ∃ c cs, x = c :: cs ∧ c ∈ lexemeStarts := by
  have hclass : ∀ c, isDigit c ∨ isIdentifierStart c ∨ isPunctuation c ∨ isOperatorChar c →
      c ∈ lexemeStarts := by
    intro c hc
    simp only [isDigit, isIdentifierStart, isPunctuation, isOperatorChar, decide_eq_true_eq] at hc
    simp only [lexemeStarts, List.mem_cons, List.mem_append]
    tauto
  cases h with
  | string _ => exact ⟨quote, _, rfl, List.mem_cons_self⟩
  | whole hne hds | pointed hne hds _ =>
    obtain ⟨d, ds, rfl⟩ := List.exists_cons_of_ne_nil hne
    exact ⟨d, _, rfl, hclass d (.inl (head_of_all hds))⟩
  | keyword hx _ | identifier hx _ =>
    cases hx with
    | run hc _ => exact ⟨_, _, rfl, hclass _ (.inr (.inl hc))⟩
  | punctuation hc => exact ⟨_, _, rfl, hclass _ (.inr (.inr (.inl hc)))⟩
  | operator hne hx =>
    obtain ⟨c, cs, rfl⟩ := List.exists_cons_of_ne_nil hne
    exact ⟨c, cs, rfl, hclass c (.inr (.inr (.inr (head_of_all hx))))⟩

theorem spelling_ofWord {x : List Char} (hx : Word x) : Spelling x (.ofWord (String.ofList x)) := by
  unfold Lexeme.ofWord
  split_ifs with hk
  · exact .keyword hx hk
  · exact .identifier hx hk

theorem ends_ofWord {x behind : List Char} (s : String) :
    (Lexeme.ofWord s).Ends x behind ↔ ∀ c ∈ behind.head?, ¬ isIdentifierChar c := by
  unfold Lexeme.ofWord
  split_ifs <;> rfl

theorem spelling_single {c : Char} (hc : c ∈ lexemeStarts) (hq : c ≠ quote) :
    ∃ y, Spelling [c] y := by
  simp only [lexemeStarts, List.mem_cons, List.mem_append, hq, false_or] at hc
  rcases hc with ((hd | hi) | hp) | ho
  · exact ⟨_, .whole (List.cons_ne_nil c []) (by simp [isDigit, hd])⟩
  · exact ⟨_, spelling_ofWord (.run (decide_eq_true hi) rfl)⟩
  · exact ⟨_, .punctuation (decide_eq_true hp)⟩
  · exact ⟨_, .operator (List.cons_ne_nil c []) (by simp [isOperatorChar, ho])⟩

theorem spelling_of_start {c : Char} (hc : c ∈ lexemeStarts) : ∃ x y, Spelling (c :: x) y := by
  by_cases hq : c = quote
  · subst hq
    exact ⟨[quote], _, .string .nil⟩
  · obtain ⟨y, hy⟩ := spelling_single hc hq
    exact ⟨[], y, hy⟩

theorem run_split (p : Char → Bool) (cs : List Char) :
    ∃ run behind, cs = run ++ behind ∧ run.all p ∧ ∀ c ∈ behind.head?, ¬ p c := by
  refine ⟨cs.takeWhile p, cs.dropWhile p, List.takeWhile_append_dropWhile.symm,
    List.all_takeWhile, fun c hc => ?_⟩
  have hh := List.head?_dropWhile_not p cs
  rw [Option.mem_def.1 hc] at hh
  simpa using hh

theorem Spelling.extended {x : List Char} {y : Lexeme} (hx : Spelling x y) (cs : List Char) :
    ∃ more behind z, cs = more ++ behind ∧ Spelling (x ++ more) z ∧ z.Ends (x ++ more) behind := by
  cases hx with
  | @string raw body h =>
    refine ⟨[], cs, .string (String.ofList body), rfl, ?_, trivial⟩
    rw [List.append_nil]
    exact .string h
  | whole hne hds =>
    obtain ⟨run, rest, rfl, hrun, hrest⟩ := run_split isDigit cs
    have hne' : x ++ run ≠ [] := List.append_ne_nil_of_left_ne_nil hne run
    have hall := all_append hds hrun
    by_cases hp : rest.head? = some point
    · obtain ⟨rest, rfl⟩ := List.head?_eq_some_iff.1 hp
      obtain ⟨places, behind, rfl, hps, hbehind⟩ := run_split isDigit rest
      have hz := Spelling.pointed hne' hall hps
      rw [List.append_assoc] at hz
      exact ⟨run ++ point :: places, behind, _, by simp, hz,
        fun d hd => ⟨hbehind d hd, fun hno => absurd (by simp) hno⟩⟩
    · refine ⟨run, rest, _, rfl, .whole hne' hall, ?_⟩
      exact fun d hd => ⟨hrest d hd, fun _ hdp => hp (hdp ▸ hd)⟩
  | @pointed ds places hne hds hps =>
    obtain ⟨run, behind, rfl, hrun, hbehind⟩ := run_split isDigit cs
    have hz := Spelling.pointed hne hds (all_append hps hrun)
    rw [← List.cons_append, ← List.append_assoc] at hz
    exact ⟨run, behind, _, rfl, hz,
      fun d hd => ⟨hbehind d hd, fun hno => absurd (by simp) hno⟩⟩
  | keyword hx _ | identifier hx _ =>
    obtain ⟨run, behind, rfl, hrun, hbehind⟩ := run_split isIdentifierChar cs
    cases hx with
    | run hc hcs =>
      exact ⟨run, behind, _, rfl, spelling_ofWord (.run hc (all_append hcs hrun)),
        (ends_ofWord _).2 hbehind⟩
  | punctuation hc => exact ⟨[], cs, _, rfl, .punctuation hc, trivial⟩
  | operator hne hx =>
    obtain ⟨run, behind, rfl, hrun, hbehind⟩ := run_split isOperatorChar cs
    exact ⟨run, behind, _, rfl,
      .operator (List.append_ne_nil_of_left_ne_nil hne run) (all_append hx hrun), hbehind⟩

theorem lexeme_or_break {c : Char} (cs : List Char) (hb : ¬ isBlank c) (hm : c ≠ commentMark) :
    (∃ x y behind, c :: cs = x ++ behind ∧ Spelling x y ∧ y.Ends x behind) ∨
      ∃ cause, Breaks (c :: cs) cause := by
  by_cases hc : c ∈ lexemeStarts
  · by_cases hq : c = quote
    · subst hq
      by_cases hclosed : ∃ raw body behind, Quoted raw body ∧ cs = raw ++ quote :: behind
      · obtain ⟨raw, body, behind, hraw, rfl⟩ := hclosed
        exact .inl ⟨_, _, behind, by simp, .string hraw, trivial⟩
      · refine .inr ⟨_, .unterminated fun raw body behind hraw hcs => hclosed ?_⟩
        exact ⟨raw, body, behind, hraw, hcs⟩
    · obtain ⟨y, hy⟩ := spelling_single hc hq
      obtain ⟨more, behind, z, rfl, hz, he⟩ := hy.extended cs
      exact .inl ⟨c :: more, z, behind, rfl, hz, he⟩
  · refine .inr ⟨_, .illegal hb hm fun x y hx => hc ?_⟩
    obtain ⟨d, ds, heq, hd⟩ := hx.start
    exact (List.cons.inj heq).1 ▸ hd

theorem readNumber_run {c : Cursor} {run : List Char} {d : Decimal}
    (hrun : numeralRun c.rest = run) (hd : Decimal.ofNumeral? run = some d) :
    readNumber c = .ok (.ofDecimal false d) (c.advance run.length) := by
  have hr := readNumber_eq c
  dsimp only at hr
  rwa [hrun, hd] at hr

theorem readWhile_run {c : Cursor} {p : Char → Bool} {run behind : List Char}
    (hc : c.rest = run ++ behind) (hrun : run.all p) (hb : ∀ d ∈ behind.head?, ¬ p d) :
    readWhile p c = .ok run (c.advance run.length) := by
  rw [readWhile, readRun_eq, hc, (span_run run hrun behind hb).1]

theorem rest_advance {c : Cursor} {xs ys : List Char} (h : c.rest = xs ++ ys) :
    (c.advance xs.length).rest = ys := by
  simp [Cursor.advance, h]

theorem position_advance {c : Cursor} {xs ys : List Char} (h : c.rest = xs ++ ys) :
    (c.advance xs.length).position = c.position.afterAll xs := by
  simp [Cursor.advance, h]

theorem readLexeme_spelling {c : Cursor} {first : Char} {x behind : List Char} {y : Lexeme}
    (hx : Spelling (first :: x) y) (he : y.Ends (first :: x) behind)
    (hc : c.rest = first :: x ++ behind) (p : Position) :
    readLexeme p first c = .ok y (c.advance (first :: x).length) := by
  generalize hw : first :: x = w at hx he hc
  cases hx with
  | @string raw body hraw =>
    obtain ⟨rfl, -⟩ := List.cons.inj hw
    have hrest : (c.advance 1).rest = raw ++ quote :: behind := by simp [Cursor.advance, hc]
    rw [readLexeme, if_pos rfl, skip_bind, map_run, readString_eq, hrest,
      stringRun?_quoted hraw behind]
    simp only [Cursor.advance_advance, List.length_cons, List.length_append, List.length_nil,
      Nat.zero_add, Nat.add_comm 1]
  | whole hne hds =>
    subst hw
    have hd : isDigit first := head_of_all hds
    have hno : point ∉ first :: x := fun hp => absurd (List.all_eq_true.1 hds _ hp) (by decide)
    have hrun := numeralRun_whole hds fun d hd => ⟨(he d hd).1, (he d hd).2 hno⟩
    rw [readLexeme_digit hd, map_run, readNumber_run (hc ▸ hrun) (ofNumeral?_whole hne hds)]
  | @pointed ds places hne hds hps =>
    obtain ⟨d, ds, rfl⟩ := List.exists_cons_of_ne_nil hne
    obtain ⟨rfl, -⟩ := List.cons.inj hw
    have hd : isDigit first := head_of_all hds
    have hrun := numeralRun_pointed hds hps fun d hd => (he d hd).1
    rw [← List.cons_append, ← List.append_assoc, ← hc] at hrun
    rw [readLexeme_digit hd, map_run, readNumber_run hrun (ofNumeral?_pointed hne hds hps)]
  | keyword hword hk | identifier hword hk =>
    subst hw
    cases hword with
    | run hi hcs =>
      have hall : (first :: x).all isIdentifierChar := by
        rw [List.all_cons, isIdentifierChar_of_start hi, hcs]
        rfl
      rw [readLexeme_word hi, map_run, readWord, map_run, readWhile_run hc hall he]
      simp only [Lexeme.ofWord, hk, if_true, if_false]
  | punctuation hp =>
    obtain ⟨rfl, -⟩ := List.cons.inj hw
    rw [readLexeme_punctuation hp]
    rfl
  | operator hne hall =>
    subst hw
    have ho : isOperatorChar first := head_of_all hall
    rw [readLexeme_operator ho, map_run, readOperator, map_run, readWhile_run hc hall he]

theorem readLexeme_breaks {c : Cursor} {first : Char} {cs : List Char} {cause : Cause}
    (h : Breaks (first :: cs) cause) (hc : c.rest = first :: cs) (p : Position) :
    ∃ c', readLexeme p first c = .error (.malformed ⟨p, cause⟩) c' := by
  cases h with
  | illegal hb hm hno =>
    have hstart : first ∉ lexemeStarts := by
      intro hs
      obtain ⟨x, y, hx⟩ := spelling_of_start hs
      exact hno x y hx
    rw [readLexeme_illegal hstart]
    exact ⟨_, rfl⟩
  | unterminated hno =>
    have hrest : (c.advance 1).rest = cs := by simp [Cursor.advance, hc]
    rw [readLexeme, if_pos rfl, skip_bind, map_run, readString_eq, hrest]
    cases hs : stringRun? false cs with
    | none => exact ⟨_, rfl⟩
    | some r =>
      obtain ⟨raw, behind, rfl, hraw⟩ := quoted_of_stringRun? hs
      exact absurd rfl (hno raw _ behind hraw)

end Lexemes

section Tokens

theorem readToken_final {c : Cursor} (hg : FinalGap c.rest) :
    readToken c = .ok none (c.advance c.rest.length) := by
  have hr := readToken_eq c
  dsimp only at hr
  rw [gapLength_final hg] at hr
  rwa [rest_advance (List.append_nil c.rest).symm] at hr

theorem readToken_gap {c : Cursor} {gap cs : List Char} {first : Char}
    (hc : c.rest = gap ++ first :: cs) (hg : Gap gap) (hb : ¬ isBlank first)
    (hm : first ≠ commentMark) :
    readToken c = match readLexeme (c.position.afterAll gap) first (c.advance gap.length) with
      | .ok y c' => .ok (some ⟨y, c.position.afterAll gap⟩) c'
      | .error e c' => .error e c' := by
  have hr := readToken_eq c
  dsimp only at hr
  have hl : gapLength false c.rest = gap.length := by
    rw [hc, gapLength_append hg, gapLength_stop hb hm, Nat.add_zero]
  rwa [hl, rest_advance hc, position_advance hc] at hr

theorem readToken_spelling {c : Cursor} {gap x behind : List Char} {y : Lexeme}
    (hc : c.rest = gap ++ x ++ behind) (hg : Gap gap) (hx : Spelling x y)
    (he : y.Ends x behind) :
    readToken c =
      .ok (some ⟨y, c.position.afterAll gap⟩) (c.advance (gap ++ x).length) := by
  obtain ⟨first, more, rfl, hs⟩ := hx.start
  obtain ⟨hb, hm⟩ := not_gap_of_start hs
  rw [List.append_assoc] at hc
  rw [readToken_gap hc hg hb hm, readLexeme_spelling hx he (rest_advance hc), List.length_append]
  simp only [Cursor.advance_advance]

theorem readToken_breaks {c : Cursor} {gap cs : List Char} {cause : Cause}
    (hc : c.rest = gap ++ cs) (hg : Gap gap) (h : Breaks cs cause) :
    ∃ c', readToken c = .error (.malformed ⟨c.position.afterAll gap, cause⟩) c' := by
  have hstart : ∃ first more, cs = first :: more ∧ ¬ isBlank first ∧ first ≠ commentMark := by
    cases h with
    | illegal hb hm _ => exact ⟨_, _, rfl, hb, hm⟩
    | unterminated _ => exact ⟨quote, _, rfl, by decide, by decide⟩
  obtain ⟨first, more, rfl, hb, hm⟩ := hstart
  obtain ⟨c', hr⟩ := readLexeme_breaks h (rest_advance hc) (c.position.afterAll gap)
  exact ⟨c', by rw [readToken_gap hc hg hb hm, hr]⟩

end Tokens

theorem Scan.result_cons (t : Token) (s : Scan) :
    (s.cons t).result = s.result.map (t :: ·) := by
  unfold result cons
  cases s.failure <;> rfl

theorem Munches.scanned {p q : Position} {cs behind : List Char} {ts : List Token}
    (h : Munches p cs ts q behind) {c : Cursor} (hp : c.position = p) (hc : c.rest = cs) :
    ∃ c', c'.position = q ∧ c'.rest = behind ∧ (Scan.ofCursor c).result =
      (Scan.ofCursor c').result.map (ts ++ ·) := by
  induction h generalizing c with
  | nil p cs =>
    refine ⟨c, hp, hc, ?_⟩
    cases (Scan.ofCursor c).result <;> rfl
  | @cons p q gap x cs behind y ts hg hx he _ ih =>
    subst hp
    obtain ⟨c', hp', hc', hr⟩ := ih (position_advance hc) (rest_advance hc)
    refine ⟨c', hp', hc', ?_⟩
    rw [Scan.ofCursor_some (readToken_spelling hc hg hx he), Scan.result_cons, hr]
    cases (Scan.ofCursor c').result <;> rfl

theorem munches_total (p : Position) (cs : List Char) :
    ∃ ts q behind, Munches p cs ts q behind ∧ (FinalGap behind ∨
      ∃ gap rest cause, behind = gap ++ rest ∧ Gap gap ∧ Breaks rest cause) := by
  induction hn : cs.length using Nat.strongRecOn generalizing p cs with
  | ind n ih =>
    rcases gap_or_more cs with hf | ⟨gap, c, rest, rfl, hg, hb, hm⟩
    · exact ⟨[], p, cs, .nil p cs, .inl hf⟩
    · rcases lexeme_or_break rest hb hm with ⟨x, y, behind, heq, hx, he⟩ | ⟨cause, hs⟩
      · obtain ⟨d, ds, rfl, _⟩ := hx.start
        rw [heq, ← List.append_assoc] at hn ⊢
        have hlt : behind.length < n := by
          rw [← hn]
          simp only [List.length_append, List.length_cons]
          omega
        obtain ⟨ts, q, last, hts, hlast⟩ := ih _ hlt (p.afterAll (gap ++ d :: ds)) behind rfl
        exact ⟨_, q, last, .cons hg hx he hts, hlast⟩
      · exact ⟨[], p, _, .nil p _, .inr ⟨gap, c :: rest, cause, rfl, hg, hs⟩⟩

/-- Tokenizing finds the cut of a text into gaps and lexemes, each of them at its longest: the
tokens are those of a cut of the whole text, and an error is that of a cut up to a place where
nothing can start. -/
theorem tokenize_decomposition (source : List Char) :
    (∀ ts, tokenize source = .ok ts ↔
      ∃ p behind, Munches .start source ts p behind ∧ FinalGap behind) ∧
    ∀ e, tokenize source = .error e ↔
      ∃ ts p gap rest cause, Munches .start source ts p (gap ++ rest) ∧ Gap gap ∧
        Breaks rest cause ∧ e = .malformed ⟨p.afterAll gap, cause⟩ := by
  have hok : ∀ ts p behind, Munches .start source ts p behind → FinalGap behind →
      tokenize source = .ok ts := by
    intro ts p behind hm hf
    obtain ⟨c, rfl, rfl, hr⟩ := hm.scanned (c := .ofChars source) rfl rfl
    rw [Scan.ofCursor_none (readToken_final hf)] at hr
    rw [tokenize, Scan.ofChars, hr]
    exact congrArg Except.ok (List.append_nil ts)
  have herror : ∀ ts p gap rest cause, Munches .start source ts p (gap ++ rest) → Gap gap →
      Breaks rest cause → tokenize source = .error (.malformed ⟨p.afterAll gap, cause⟩) := by
    intro ts p gap rest cause hm hg hs
    obtain ⟨c, rfl, hc, hr⟩ := hm.scanned (c := .ofChars source) rfl rfl
    obtain ⟨c', ht⟩ := readToken_breaks hc hg hs
    rw [Scan.ofCursor_error ht] at hr
    rw [tokenize, Scan.ofChars, hr]
    rfl
  -- reading follows every cut, so the cut that there is decides which answer was given
  obtain ⟨ts, p, behind, hm, hlast⟩ := munches_total .start source
  refine ⟨fun us => ⟨fun h => ?_, fun ⟨p, behind, hm, hf⟩ => hok us p behind hm hf⟩,
    fun e => ⟨fun h => ?_, fun ⟨ts, p, gap, rest, cause, hm, hg, hs, he⟩ =>
      he ▸ herror ts p gap rest cause hm hg hs⟩⟩
  · rcases hlast with hf | ⟨gap, rest, cause, rfl, hg, hs⟩
    · cases h.symm.trans (hok ts p behind hm hf)
      exact ⟨p, behind, hm, hf⟩
    · cases h.symm.trans (herror ts p gap rest cause hm hg hs)
  · rcases hlast with hf | ⟨gap, rest, cause, rfl, hg, hs⟩
    · cases h.symm.trans (hok ts p behind hm hf)
    · cases h.symm.trans (herror ts p gap rest cause hm hg hs)
      exact ⟨ts, p, gap, rest, cause, hm, hg, hs, rfl⟩

end RuleLang
