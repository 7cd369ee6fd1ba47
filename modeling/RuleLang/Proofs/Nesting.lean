import Mathlib.Data.List.Infix
import RuleLang.Proofs.Gauge

/-!
Nesting. How deeply brackets nest decides whether a source is refused as nested too deeply, and
nothing else does. A limit of two levels for every bracket open at once, and two, is never
exceeded. Each construct that is opened and not closed takes a level, so that too many of them at
the start of a source exceed any limit, whatever is behind them.

Every operand that is being read takes a level. So does an argument list behind a whole chain of
operators, where none is being read; the limit found here is enough for those, too.
-/
namespace RuleLang

open Alphabet RuleLang.Vocabulary RuleLang.Parser

/-- Beginnings of constructs, as far as to where the next one can stand. -/
inductive Opener
  | group | block | call | signedGroup | statement | body

namespace Opener

def text : Opener → List Char
  | group => ['(']
  | block => ['{']
  | call => ['f', '(']
  | signedGroup => ['-', '(']
  | statement => ['{', 'a', ';']
  | body => ['r', 'u', 'l', 'e', '(', ')', '{']

def lexemes : Opener → List Lexeme
  | group => [.punctuation openParen]
  | block => [.punctuation openBrace]
  | call => [.identifier "f", .punctuation openParen]
  | signedGroup => [.operator "-", .punctuation openParen]
  | statement => [.punctuation openBrace, .identifier "a", .punctuation semicolon]
  | body => [.keyword ruleWord, .punctuation openParen, .punctuation closeParen,
      .punctuation openBrace]

end Opener

def LexesAs (text : List Char) (xs : List Lexeme) : Prop :=
  ∀ p cs, ∃ ts, Munches p (text ++ cs) ts (p.afterAll text) cs ∧ ts.map (·.lexeme) = xs

theorem Lexeme.ends_punctuation {c : Char} (hc : isPunctuation c) (x behind : List Char)
    (y : Lexeme) : y.Ends x (c :: behind) := by
  have hmem : c ∈ punctuationMarks := of_decide_eq_true hc
  simp only [punctuationMarks, List.mem_cons, List.not_mem_nil, or_false] at hmem
  have hother : (¬ isDigit c ∧ c ≠ point) ∧ ¬ isIdentifierChar c ∧ ¬ isOperatorChar c := by
    rcases hmem with rfl | rfl | rfl | rfl | rfl | rfl | rfl | rfl | rfl <;> decide
  cases y with
  | number =>
    intro d hd
    obtain rfl := Option.some.inj hd
    exact ⟨hother.1.1, fun _ => hother.1.2⟩
  | identifier | keyword =>
    intro d hd
    obtain rfl := Option.some.inj hd
    exact hother.2.1
  | operator =>
    intro d hd
    obtain rfl := Option.some.inj hd
    exact hother.2.2
  | string | punctuation => trivial

namespace LexesAs

variable {text : List Char} {ys : List Lexeme} {c : Char}

theorem nil : LexesAs [] [] := fun p cs => ⟨[], .nil p cs, rfl⟩

theorem cons {x : List Char} {y : Lexeme} (hx : Spelling x y)
    (he : ∀ cs, y.Ends x (text ++ cs)) (h : LexesAs text ys) : LexesAs (x ++ text) (y :: ys) := by
  intro p cs
  obtain ⟨ts, hm, hts⟩ := h (p.afterAll x) cs
  refine ⟨⟨y, p⟩ :: ts, ?_, by rw [List.map_cons, hts]⟩
  have hcons := Munches.cons (p := p) .nil hx (he cs) hm
  rwa [List.nil_append, ← Position.afterAll_append, ← List.append_assoc] at hcons

theorem before {x : List Char} {y : Lexeme} (hx : Spelling x y) (hc : isPunctuation c)
    (h : LexesAs (c :: text) ys) : LexesAs (x ++ c :: text) (y :: ys) :=
  .cons hx (fun _ => y.ends_punctuation hc x _) h

theorem punctuation (hc : isPunctuation c) (h : LexesAs text ys) :
    LexesAs (c :: text) (.punctuation (String.singleton c) :: ys) :=
  .cons (x := [c]) (.punctuation hc) (fun _ => trivial) h

end LexesAs

theorem Opener.lexesAs (c : Opener) {text : List Char} {ys : List Lexeme} (h : LexesAs text ys) :
    LexesAs (c.text ++ text) (c.lexemes ++ ys) := by
  have hparen : LexesAs ('(' :: text) (.punctuation openParen :: ys) := .punctuation (by decide) h
  have hbrace : LexesAs ('{' :: text) (.punctuation openBrace :: ys) := .punctuation (by decide) h
  cases c with
  | group => exact hparen
  | block => exact hbrace
  | call =>
    have hname : Spelling ['f'] (.identifier "f") := .identifier (.run (by decide) rfl) (by decide)
    exact .before hname (by decide) hparen
  | signedGroup =>
    have hsign : Spelling ['-'] (.operator "-") := .operator (by simp) (by decide)
    exact .before hsign (by decide) hparen
  | statement =>
    have hname : Spelling ['a'] (.identifier "a") := .identifier (.run (by decide) rfl) (by decide)
    have hend : LexesAs (';' :: text) (.punctuation semicolon :: ys) := .punctuation (by decide) h
    exact .punctuation (by decide) (.before hname (by decide) hend)
  | body =>
    have hword : Spelling ['r', 'u', 'l', 'e'] (.keyword ruleWord) :=
      .keyword (.run (by decide) rfl) (by decide)
    have hparams : LexesAs ('(' :: ')' :: '{' :: text) (.punctuation openParen ::
        .punctuation closeParen :: .punctuation openBrace :: ys) :=
      .punctuation (by decide) (.punctuation (by decide) hbrace)
    exact .before hword (by decide) hparams

theorem lexesAs_openers (cs : List Opener) :
    LexesAs (cs.flatMap Opener.text) (cs.flatMap Opener.lexemes) := by
  induction cs with
  | nil => exact .nil
  | cons c cs ih => exact c.lexesAs ih

def Opened (cs : List Opener) (ts : List Token) : Prop :=
  cs.flatMap Opener.lexemes <+: ts.map (·.lexeme)

theorem prefix_cons {x : Lexeme} {xs : List Lexeme} {ts : List Token}
    (h : x :: xs <+: ts.map (·.lexeme)) :
    ∃ t us, ts = t :: us ∧ t.lexeme = x ∧ xs <+: us.map (·.lexeme) := by
  cases ts with
  | nil => simp at h
  | cons t us =>
    obtain ⟨hx, hxs⟩ := List.cons_prefix_cons.1 h
    exact ⟨t, us, rfl, hx.symm, hxs⟩

theorem Opened.head {cs : List Opener} {ts : List Token} (h : Opened cs ts) (hc : cs ≠ []) :
    ∃ t us, ts = t :: us ∧ t.lexeme ≠ .punctuation closeParen ∧
      t.lexeme ≠ .punctuation closeBrace := by
  cases cs with
  | nil => exact absurd rfl hc
  | cons c cs =>
    unfold Opened at h
    cases c <;>
    · obtain ⟨t, us, rfl, ht, -⟩ := prefix_cons h
      refine ⟨t, us, rfl, ?_, ?_⟩ <;> rw [ht] <;> decide

theorem opened_ofChars (cs : List Opener) (more : List Char) :
    Opened cs (Scan.ofChars (cs.flatMap Opener.text ++ more)).tokens := by
  obtain ⟨ts, hm, hts⟩ := lexesAs_openers cs .start more
  obtain ⟨c, hpass, -, -⟩ :=
    hm.passes (c := .ofChars (cs.flatMap Opener.text ++ more)) rfl rfl
  rw [Scan.ofChars, hpass.scan]
  refine ⟨(Scan.ofCursor c).tokens.map (·.lexeme), ?_⟩
  rw [← hts]
  exact (List.map_append ..).symm

/-- These tokens are still to come, and so many operands are being read. -/
structure Gauged.At (ts : List Token) (n : Nat) (s : Gauged Lexer) : Prop where
  tokens : s.source.scan.tokens = ts
  active : s.active = n
  shown : n ≤ s.most

theorem Gauged.At.enter {ts : List Token} {n : Nat} {s : Gauged Lexer} (h : s.At ts n) :
    s.enter.At ts (n + 1) := by
  refine ⟨h.tokens, congrArg (· + 1) h.active, ?_⟩
  rw [← h.active]
  exact Nat.le_max_right ..

namespace Parser

variable {α β : Type} {k : Nat} {t : Token} {ts us vs : List Token} {a : α} {b : β}

def Takes (p : Parser (Gauged Lexer) α) (a : α) (ts us : List Token) : Prop :=
  ∀ n s, s.At ts n → ∃ s', p s = .ok a s' ∧ s'.At us n

/-- The reader refuses to read more deeply, when so many more operands are being read. -/
def Refuses (k : Nat) (p : Parser (Gauged Lexer) α) (ts : List Token) : Prop :=
  ∀ n s, s.At ts n → ∃ place left,
    p s = .error (.malformed ⟨place, .nestingTooDeep⟩) left ∧ n + k ≤ left.most

namespace Takes

variable {p : Parser (Gauged Lexer) α} {f : α → Parser (Gauged Lexer) β}

theorem pure (a : α) : Takes (Pure.pure a) a ts ts := fun _ _ h => ⟨_, rfl, h⟩

theorem bind (h : Takes p a ts us) (hf : Takes (f a) b us vs) : Takes (p >>= f) b ts vs := by
  intro n s hs
  obtain ⟨m, hp, hm⟩ := h n s hs
  rw [bind_of_ok hp]
  exact hf n m hm

theorem peek : Takes Parser.peek (some t) (t :: ts) (t :: ts) := by
  intro n s hs
  have hpeek := Lexer.peek_answers s.source
  have hgauge : (Parser.peek : Parser (Gauged Lexer) (Option Token)) s =
      Gauged.beside s.active s.most (Lexer.peek s.source) := rfl
  rw [hs.tokens] at hpeek
  cases hr : Lexer.peek s.source with
  | error e l =>
    rw [hr] at hpeek
    exact absurd hpeek.1 (List.cons_ne_nil _ _)
  | ok u l =>
    rw [hr] at hpeek hgauge
    obtain ⟨rfl, hl⟩ := hpeek
    exact ⟨_, hgauge, hl, hs.active, hs.shown⟩

theorem next : Takes Parser.next (some t) (t :: ts) ts := by
  intro n s hs
  have hnext := Lexer.next_answers s.source
  have hgauge : (Parser.next : Parser (Gauged Lexer) (Option Token)) s =
      Gauged.beside s.active s.most (Lexer.next s.source) := rfl
  rw [hs.tokens] at hnext
  cases hr : Lexer.next s.source with
  | error e l =>
    rw [hr] at hnext
    exact absurd hnext.1 (List.cons_ne_nil _ _)
  | ok u l =>
    rw [hr] at hnext hgauge
    obtain ⟨rfl, hl⟩ := hnext
    exact ⟨_, hgauge, hl, hs.active, hs.shown⟩

theorem look {f : Option Token → Parser (Gauged Lexer) α} (h : Takes (f (some t)) a (t :: ts) us) :
    Takes (Parser.peek >>= f) a (t :: ts) us :=
  .bind .peek h

theorem expect {wanted : Lexeme → Bool} (cause : Cause) (hw : wanted t.lexeme) :
    Takes (Parser.expect wanted cause) t (t :: ts) ts := by
  refine .look ?_
  dsimp only
  rw [if_pos hw]
  exact .bind .next (.pure t)

theorem mark {text : String} (h : t.lexeme = .punctuation text) :
    Takes (expectPunctuation text) t (t :: ts) ts :=
  .expect _ (decide_eq_true h)

theorem counted (h : Takes p a ts us) : Takes (Gauged.counted p) a ts us := by
  intro n s hs
  obtain ⟨m, hp, hm⟩ := h (n + 1) s.enter hs.enter
  refine ⟨m.leave, ?_, hm.tokens, ?_, Nat.le_of_succ_le hm.shown⟩
  · rw [Gauged.counted, hp]
  · exact congrArg (· - 1) hm.active

end Takes

namespace Refuses

variable {p : Parser (Gauged Lexer) α} {f : α → Parser (Gauged Lexer) β}

theorem tooDeep : Refuses 0 (fail .nestingTooDeep : Parser (Gauged Lexer) α) ts :=
  fun _ _ hs => ⟨_, _, rfl, hs.shown⟩

theorem bind (h : Refuses k p ts) (f : α → Parser (Gauged Lexer) β) : Refuses k (p >>= f) ts := by
  intro n s hs
  obtain ⟨place, left, hp, hmost⟩ := h n s hs
  exact ⟨place, left, bind_of_error hp f, hmost⟩

theorem after (hp : Takes p a ts us) (h : Refuses k (f a) us) : Refuses k (p >>= f) ts := by
  intro n s hs
  obtain ⟨m, hp, hm⟩ := hp n s hs
  rw [bind_of_ok hp]
  exact h n m hm

theorem look {f : Option Token → Parser (Gauged Lexer) α} (h : Refuses k (f (some t)) (t :: ts)) :
    Refuses k (peek >>= f) (t :: ts) :=
  .after .peek h

theorem counted (h : Refuses k p ts) : Refuses (k + 1) (Gauged.counted p) ts := by
  intro n s hs
  obtain ⟨place, left, hp, hmost⟩ := h (n + 1) s.enter hs.enter
  refine ⟨place, left.leave, ?_, ?_⟩
  · rw [Gauged.counted, hp]
  · have hleave : left.leave.most = left.most := rfl
    omega

end Refuses

section Openings

variable {rounds : Nat} {inner : Level (Gauged Lexer)} {o : Token}

theorem itemsFrom_refuses {last separator : String} {item : Parser (Gauged Lexer) α}
    (ht : t.lexeme ≠ .punctuation last) (h : Refuses k item (t :: ts)) :
    Refuses k (itemsFrom last separator item rounds) (t :: ts) := by
  refine .look ?_
  rw [if_neg (by simp [not_isMark ht])]
  exact h.bind _

theorem delimited_refuses {start last separator : String} {item : Parser (Gauged Lexer) α}
    (ho : o.lexeme = .punctuation start) (ht : t.lexeme ≠ .punctuation last)
    (h : Refuses k item (t :: ts)) :
    Refuses k (delimited (rounds + 1) start last separator item) (o :: t :: ts) := by
  refine .after (.mark ho) (.bind ?_ _)
  rw [items_first]
  refine .look ?_
  rw [if_neg (by simp [not_isMark ht])]
  exact itemsFrom_refuses ht h

theorem delimited_refuses_second {start last separator : String} {item : Parser (Gauged Lexer) α}
    {x : α} {y s : Token} (ho : o.lexeme = .punctuation start) (hy : y.lexeme ≠ .punctuation last)
    (hs : s.lexeme = .punctuation separator) (hne : separator ≠ last)
    (ht : t.lexeme ≠ .punctuation last) (hx : Takes item x (y :: s :: t :: ts) (s :: t :: ts))
    (h : Refuses k item (t :: ts)) :
    Refuses k (delimited (rounds + 2) start last separator item) (o :: y :: s :: t :: ts) := by
  have hsl : s.lexeme ≠ .punctuation last := by simpa [hs] using hne
  refine .after (.mark ho) (.bind ?_ _)
  rw [items_first]
  refine .look ?_
  rw [if_neg (by simp [not_isMark hy])]
  refine .look ?_
  rw [if_neg (by simp [not_isMark hy])]
  refine .after hx (.bind ?_ _)
  rw [items_later]
  refine .look ?_
  rw [if_neg (by simp [not_isMark hsl])]
  exact .after (.mark hs) (itemsFrom_refuses ht h)

theorem atom_takes (h : t.lexeme.isLeaf) : Takes (atom rounds inner) (.leaf t) (t :: ts) ts := by
  refine .look ?_
  dsimp only
  rw [opening_leaf h]
  exact .bind .next (.pure _)

theorem invocation_takes {argument : Parser (Gauged Lexer) Node} {node : Node}
    (ht : t.lexeme ≠ .punctuation openParen) :
    Takes (invocation rounds argument node) node (t :: ts) (t :: ts) := by
  rw [invocation_eq]
  refine .look ?_
  rw [if_neg (by simp [not_isMark ht])]
  exact .pure node

theorem expression_takes {y s : Token} (hy : y.lexeme.isLeaf)
    (hs : s.lexeme = .punctuation semicolon) (n : Nat) :
    Takes (Gauged.level (rounds + 1) (n + 1)).expression (.leaf y) (y :: s :: ts) (s :: ts) := by
  have hopen : s.lexeme ≠ .punctuation openParen := by simp [hs, semicolon, openParen]
  have hoperand : Takes (operand (rounds + 1) (Gauged.level (rounds + 1) n)) (.leaf y)
      (y :: s :: ts) (s :: ts) := .bind (atom_takes hy) (invocation_takes hopen)
  have hchain (p : Parser (Gauged Lexer) Node) :
      Takes (bindings p (rounds + 1) (.leaf y) 0) (.leaf y) (s :: ts) (s :: ts) := by
    rw [bindings_succ]
    refine .look ?_
    rw [operatorText?_punctuation hs]
    exact .pure _
  exact .bind hoperand.counted (.bind (hchain _) (invocation_takes hopen))

theorem group_refuses (ho : o.lexeme = .punctuation openParen)
    (h : Refuses k inner.expression ts) : Refuses k (operand rounds inner) (o :: ts) := by
  refine .bind (.look ?_) _
  dsimp only
  rw [opening_group ho]
  exact .after (.mark ho) (h.bind _)

theorem braces_refuses (ho : o.lexeme = .punctuation openBrace)
    (h : Refuses k (block rounds inner) (o :: ts)) :
    Refuses k (operand rounds inner) (o :: ts) := by
  refine .bind (.look ?_) _
  dsimp only
  rwa [opening_braces ho]

theorem call_refuses {f : Token} (hf : f.lexeme.isLeaf) (ho : o.lexeme = .punctuation openParen)
    (ht : t.lexeme ≠ .punctuation closeParen) (h : Refuses k inner.expression (t :: ts)) :
    Refuses k (operand (rounds + 1) inner) (f :: o :: t :: ts) := by
  refine .after (atom_takes hf) ?_
  rw [invocation_eq]
  refine .look ?_
  rw [if_pos (isMark_some.2 ho)]
  exact (delimited_refuses ho ht h).bind _

theorem signed_refuses {sign : Token} (hs : isOperatorAmong signOperators sign.lexeme)
    (ho : o.lexeme = .punctuation openParen) (h : Refuses k inner.operand (o :: ts)) :
    Refuses k (operand rounds inner) (sign :: o :: ts) := by
  refine .bind (.look ?_) _
  dsimp only
  rw [opening_sign hs, signed_eq]
  refine .after (.expect _ hs) (.look ?_)
  rw [if_pos (by simp [takesSign, ho])]
  exact h.bind _

theorem body_refuses {r c b : Token} (hr : r.lexeme = .keyword ruleWord)
    (ho : o.lexeme = .punctuation openParen) (hc : c.lexeme = .punctuation closeParen)
    (hb : b.lexeme = .punctuation openBrace)
    (h : Refuses k (block (rounds + 1) inner) (b :: ts)) :
    Refuses k (operand (rounds + 1) inner) (r :: o :: c :: b :: ts) := by
  have hname : Takes name? none (o :: c :: b :: ts) (o :: c :: b :: ts) := by
    rw [name?_eq]
    refine .look ?_
    rw [if_neg (by simp [Token.kind, ho, Lexeme.kind])]
    exact .pure none
  have hitems : Takes (items closeParen comma expectIdentifier (rounds + 1) true) []
      (c :: b :: ts) (c :: b :: ts) := by
    rw [items_first]
    refine .look ?_
    rw [if_pos (by simp [isMark_some.2 hc])]
    exact .pure []
  have hparams : Takes (parameters (rounds + 1)) [] (o :: c :: b :: ts) (b :: ts) := by
    rw [parameters_eq]
    refine .look ?_
    rw [if_pos (isMark_some.2 ho)]
    exact .bind (.bind (.mark ho) (.bind hitems (.bind (.mark hc) (.pure [])))) (.pure [])
  refine .bind (.look ?_) _
  dsimp only
  rw [opening_declaration hr, declaration_eq]
  refine .after .next (.after hname (.after hparams (.look ?_)))
  rw [if_pos (isMark_some.2 hb)]
  exact h.bind _

end Openings

theorem level_refuses {rounds : Nat} (cs : List Opener) :
    ∀ {n : Nat} {ts : List Token}, n < cs.length → Opened cs ts →
      Refuses n (Gauged.level (rounds + 2) n).expression ts := by
  induction cs with
  | nil => exact fun hn => absurd hn (Nat.not_lt_zero _)
  | cons c cs ih =>
    intro n ts hn h
    obtain _ | n := n
    · exact .tooDeep
    · have hn' : n < cs.length := Nat.lt_of_succ_lt_succ hn
      have hne : cs ≠ [] := List.ne_nil_of_length_pos (Nat.zero_lt_of_lt hn')
      unfold Opened at h
      suffices hoperand : Refuses n (operand (rounds + 2) (Gauged.level (rounds + 2) n)) ts from
        hoperand.counted.bind _
      cases c with
      | group =>
        obtain ⟨o, ts, rfl, ho, h⟩ := prefix_cons h
        exact group_refuses ho (ih hn' h)
      | block =>
        obtain ⟨o, ts, rfl, ho, h⟩ := prefix_cons h
        obtain ⟨t, us, rfl, -, ht⟩ := Opened.head h hne
        exact braces_refuses ho ((delimited_refuses ho ht (ih hn' h)).bind _)
      | call =>
        obtain ⟨f, ts, rfl, hf, h⟩ := prefix_cons h
        obtain ⟨o, ts, rfl, ho, h⟩ := prefix_cons h
        obtain ⟨t, us, rfl, ht, -⟩ := Opened.head h hne
        exact call_refuses (by rw [hf]; rfl) ho ht (ih hn' h)
      | signedGroup =>
        obtain ⟨s, ts, rfl, hs, h⟩ := prefix_cons h
        obtain ⟨o, ts, rfl, ho, h⟩ := prefix_cons h
        refine signed_refuses (by rw [hs]; rfl) ho ?_
        -- the sign and the bracket behind it take a level each
        obtain _ | n := n
        · exact .tooDeep
        · exact (group_refuses ho (ih (by omega) h)).counted
      | statement =>
        obtain ⟨o, ts, rfl, ho, h⟩ := prefix_cons h
        obtain ⟨y, ts, rfl, hy, h⟩ := prefix_cons h
        obtain ⟨s, ts, rfl, hs, h⟩ := prefix_cons h
        obtain ⟨t, us, rfl, -, ht⟩ := Opened.head h hne
        refine braces_refuses ho (.bind ?_ _)
        have hclose : y.lexeme ≠ .punctuation closeBrace := by simp [hy]
        obtain _ | n := n
        · exact delimited_refuses ho hclose .tooDeep
        · exact delimited_refuses_second ho hclose hs (by decide) ht
            (expression_takes (by rw [hy]; rfl) hs n) (ih hn' h)
      | body =>
        obtain ⟨r, ts, rfl, hr, h⟩ := prefix_cons h
        obtain ⟨o, ts, rfl, ho, h⟩ := prefix_cons h
        obtain ⟨p, ts, rfl, hp, h⟩ := prefix_cons h
        obtain ⟨b, ts, rfl, hb, h⟩ := prefix_cons h
        obtain ⟨t, us, rfl, -, ht⟩ := Opened.head h hne
        exact body_refuses hr ho hp hb ((delimited_refuses hb ht (ih hn' h)).bind _)

theorem program_refuses {limit : Nat} {cs : List Opener} {source : List Char}
    (hc : limit < cs.length) (h : Opened cs (Scan.ofChars source).tokens) :
    ∃ place left, Gauged.program limit ⟨Lexer.ofChars source, 0, 0⟩ =
      .error (.malformed ⟨place, .nestingTooDeep⟩) left ∧ limit ≤ left.most := by
  obtain ⟨t, us, ht, -, -⟩ := Opened.head h (List.ne_nil_of_length_pos (Nat.zero_lt_of_lt hc))
  have hstart : Gauged.At (t :: us) 0 ⟨Lexer.ofChars source, 0, 0⟩ := ⟨ht, rfl, Nat.le_refl 0⟩
  have hstatements (rounds : Nat) : Refuses limit
      (statements (Gauged.level (rounds + 2) limit).expression (rounds + 2)) (t :: us) := by
    rw [statements_succ]
    exact .look ((level_refuses cs hc (ht ▸ h)).bind _)
  -- there is a token, so that there are two rounds or more
  have hlength : (Scan.ofChars source).tokens.length ≤ TokenSource.size (Lexer.ofChars source) :=
    Scan.length_ofCursor (.ofChars source)
  rw [ht, List.length_cons] at hlength
  obtain ⟨rounds, hrounds⟩ : ∃ rounds, TokenSource.size (Lexer.ofChars source) + 1 = rounds + 2 :=
    Nat.exists_eq_add_of_le' (by omega)
  obtain ⟨place, left, hrun, hmost⟩ := hstatements rounds 0 _ hstart
  rw [← hrounds] at hrun
  exact ⟨place, left, hrun, Nat.zero_add limit ▸ hmost⟩

end Parser

/-- The trees of a source text if at most so many levels are allowed, or the first failure. -/
def parseWithin (limit : Nat) (source : List Char) : Except Failure (List Node) :=
  match program limit (Lexer.ofChars source) with
  | .ok nodes _ => .ok nodes
  | .error e _ => .error e

theorem parse_eq_parseWithin : parse = parseWithin nestingLimit := rfl

theorem parseWithin_eq_error {limit : Nat} {source : List Char} {f : Failure} :
    parseWithin limit source = .error f ↔
      ∃ left, program limit (Lexer.ofChars source) = .error f left := by
  unfold parseWithin
  cases program limit (Lexer.ofChars source) <;> simp

theorem parseWithin_openers {limit : Nat} {cs : List Opener} (more : List Char)
    (h : limit < cs.length) :
    limit ≤ operandsAtOnce limit (cs.flatMap Opener.text ++ more) ∧
      ∃ p, parseWithin limit (cs.flatMap Opener.text ++ more) =
        .error (.malformed ⟨p, .nestingTooDeep⟩) := by
  obtain ⟨p, left, hg, hmost⟩ := program_refuses h (opened_ofChars cs more)
  refine ⟨?_, p, ?_⟩
  · rwa [operandsAtOnce, hg]
  · rw [program_gauged] at hg
    rw [parseWithin_eq_error]
    cases hp : program limit (Lexer.ofChars (cs.flatMap Opener.text ++ more)) with
    | ok nodes l =>
      rw [hp] at hg
      cases hg
    | error e l =>
      rw [hp] at hg
      obtain ⟨rfl, -⟩ := EStateM.Result.error.inj hg
      exact ⟨l, rfl⟩

/-- Reading is the same beside a gauge of the operands that are read at once. With at most `d`
brackets open anywhere in the tokens these are no more than two for each and two, and so many
levels are enough. More beginnings of constructs than levels are too many, whatever is behind them:
all levels are taken by operands then. -/
theorem nesting_decides (limit : Nat) (source : List Char) :
    Gauged.program limit ⟨Lexer.ofChars source, 0, 0⟩ =
      Gauged.beside 0 (operandsAtOnce limit source) (program limit (Lexer.ofChars source)) ∧
    (∀ d, (∀ pre, pre <+: (Scan.ofChars source).tokens → unclosed pre ≤ d) →
      operandsAtOnce limit source ≤ 2 * d + 2 ∧
      (2 * d + 2 ≤ limit → ∀ p,
        parseWithin limit source ≠ .error (.malformed ⟨p, .nestingTooDeep⟩))) ∧
    ∀ cs : List Opener, cs.flatMap Opener.text <+: source → limit < cs.length →
      limit ≤ operandsAtOnce limit source ∧
      ∃ p, parseWithin limit source = .error (.malformed ⟨p, .nestingTooDeep⟩) := by
  refine ⟨program_gauged limit source, fun d hd => ?_, fun cs hsource hc => ?_⟩
  · have hdepth := bracketDepth_le hd
    refine ⟨operandsAtOnce_le limit hdepth, fun hlimit p hp => ?_⟩
    obtain ⟨left, hleft⟩ := parseWithin_eq_error.1 hp
    have hless := (program_metered limit hdepth).2 _ left hleft rfl
    exact absurd hless (Nat.not_lt.2 hlimit)
  · obtain ⟨more, rfl⟩ := hsource
    exact parseWithin_openers more hc

theorem nesting_decides_signed :
    (∀ p, parseWithin 4 ['-', '(', '-', 'a', ')'] ≠ .error (.malformed ⟨p, .nestingTooDeep⟩)) ∧
      ∃ p, parse ((List.replicate 1001 Opener.group).flatMap Opener.text ++ ['@']) =
        .error (.malformed ⟨p, .nestingTooDeep⟩) := by
  have htokens : (Scan.ofChars ['-', '(', '-', 'a', ')']).tokens = [⟨.operator "-", ⟨1, 0⟩⟩,
      ⟨.punctuation openParen, ⟨1, 1⟩⟩, ⟨.operator "-", ⟨1, 2⟩⟩, ⟨.identifier "a", ⟨1, 3⟩⟩,
      ⟨.punctuation closeParen, ⟨1, 4⟩⟩] := rfl
  have hopen : ∀ pre, pre <+: (Scan.ofChars ['-', '(', '-', 'a', ')']).tokens →
      unclosed pre ≤ 1 := by
    intro pre hpre
    rw [← List.mem_inits, htokens] at hpre
    simp only [List.inits, List.map_cons, List.map_nil, List.mem_cons, List.not_mem_nil,
      or_false] at hpre
    rcases hpre with rfl | rfl | rfl | rfl | rfl | rfl <;>
      simp [unclosed, openBehind, Lexeme.opens, Lexeme.closes, openParen, openBrace, closeParen]
  have hlimit : nestingLimit < (List.replicate 1001 Opener.group).length := by
    rw [List.length_replicate]
    decide
  obtain ⟨-, hshallow, -⟩ := nesting_decides 4 ['-', '(', '-', 'a', ')']
  refine ⟨(hshallow 1 hopen).2 (Nat.le_refl 4), ?_⟩
  rw [parse_eq_parseWithin]
  exact ((nesting_decides nestingLimit _).2.2 _ (List.prefix_append _ _) hlimit).2

-- the signs, the group and the name are all read at once, and with three levels they are refused
example : operandsAtOnce 4 ['-', '(', '-', 'a', ')'] = 4 := by decide +kernel

example : parseWithin 3 ['-', '(', '-', 'a', ')'] =
    .error (.malformed ⟨⟨1, 3⟩, .nestingTooDeep⟩) := rfl

end RuleLang
