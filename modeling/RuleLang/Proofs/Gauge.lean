import RuleLang.Proofs.Laziness
import RuleLang.Proofs.NextToken
import RuleLang.Proofs.Reading

/-!
How many operands are read at once. A gauge beside a source counts the operands that are being read
at the moment and remembers the most that it has shown; it makes no other difference. What it can
show is bounded by the brackets of the tokens still to be read: an operand goes on to further
operands inside brackets, or behind a sign, which is never followed by another sign.
-/
namespace RuleLang

open RuleLang.Vocabulary RuleLang.Parser

structure Gauged (σ : Type) where
  source : σ
  active : Nat
  most : Nat

namespace Gauged

variable {σ α : Type}

/-- The outcome of a reader of the source, with the gauge beside what it leaves. -/
def beside (active most : Nat) : EStateM.Result Failure σ α → EStateM.Result Failure (Gauged σ) α
  | .ok a s => .ok a ⟨s, active, most⟩
  | .error e s => .error e ⟨s, active, most⟩

def reading (p : Parser σ α) : Parser (Gauged σ) α :=
  fun s => beside s.active s.most (p s.source)

instance [TokenSource σ] : TokenSource (Gauged σ) where
  peek := reading TokenSource.peek
  next := reading TokenSource.next
  here s := TokenSource.here s.source
  size s := TokenSource.size s.source

def enter (s : Gauged σ) : Gauged σ := ⟨s.source, s.active + 1, max s.most (s.active + 1)⟩

def leave (s : Gauged σ) : Gauged σ := ⟨s.source, s.active - 1, s.most⟩

def counted (p : Parser (Gauged σ) α) : Parser (Gauged σ) α := fun s =>
  match p s.enter with
  | .ok a s' => .ok a s'.leave
  | .error e s' => .error e s'.leave

variable [TokenSource σ]

def level (rounds : Nat) : Nat → Level (Gauged σ)
  | 0 => ⟨Parser.fail .nestingTooDeep, Parser.fail .nestingTooDeep⟩
  | depth + 1 =>
    let inner := level rounds depth
    let operand := counted (Parser.operand rounds inner)
    ⟨operand, Parser.expression rounds inner operand⟩

def program (limit : Nat) : Parser (Gauged σ) (List Node) :=
  withRounds fun rounds => statements (level rounds limit).expression rounds

end Gauged

/-- The most operands of a source that are read at once. -/
def operandsAtOnce (limit : Nat) (source : List Char) : Nat :=
  match Gauged.program limit ⟨Lexer.ofChars source, 0, 0⟩ with
  | .ok _ s | .error _ s => s.most

namespace Lexeme

def opens (x : Lexeme) : Bool := x = .punctuation openParen || x = .punctuation openBrace

def closes (x : Lexeme) : Bool := x = .punctuation closeParen || x = .punctuation closeBrace

def Neutral (x : Lexeme) : Prop := x.opens = false ∧ x.closes = false

theorem opens_bracket {text : String} (h : text = openParen ∨ text = openBrace) :
    (punctuation text).opens := by
  rcases h with rfl | rfl <;> rfl

theorem closes_bracket {text : String} (h : text = closeParen ∨ text = closeBrace) :
    (punctuation text).opens = false ∧ (punctuation text).closes := by
  rcases h with rfl | rfl <;> decide

theorem neutral_of_kind {x : Lexeme} (h : x.kind ≠ .punctuation) : x.Neutral := by
  cases x with
  | punctuation => exact absurd rfl h
  | _ => exact ⟨rfl, rfl⟩

theorem neutral_of_isLeaf {x : Lexeme} (h : x.isLeaf) : x.Neutral := by
  cases x with
  | punctuation => cases h
  | _ => exact ⟨rfl, rfl⟩

theorem neutral_of_operator {choices : List String} {x : Lexeme}
    (h : isOperatorAmong choices x) : x.Neutral := by
  cases x with
  | punctuation => cases h
  | _ => exact ⟨rfl, rfl⟩

end Lexeme

def openBehind (n : Nat) (t : Token) : Nat :=
  if t.lexeme.opens then n + 1 else if t.lexeme.closes then n - 1 else n

/-- How many opening brackets are left without a closing one. -/
def unclosed (ts : List Token) : Nat := ts.foldl openBehind 0

/-- The most by which opening brackets exceed closing ones anywhere in the tokens. -/
def bracketDepth : List Token → Nat
  | [] => 0
  | t :: ts =>
    if t.lexeme.opens then bracketDepth ts + 1
    else if t.lexeme.closes then bracketDepth ts - 1
    else bracketDepth ts

section Brackets

variable {t : Token} {ts : List Token}

theorem bracketDepth_open (h : t.lexeme.opens) :
    bracketDepth (t :: ts) = bracketDepth ts + 1 := by
  rw [bracketDepth, if_pos h]

theorem bracketDepth_close (h : t.lexeme.opens = false) (hc : t.lexeme.closes) :
    bracketDepth (t :: ts) = bracketDepth ts - 1 := by
  rw [bracketDepth, if_neg (by simp [h]), if_pos hc]

theorem bracketDepth_neutral (h : t.lexeme.Neutral) :
    bracketDepth (t :: ts) = bracketDepth ts := by
  rw [bracketDepth, if_neg (by simp [h.1]), if_neg (by simp [h.2])]

theorem bracketDepth_add_le {d n : Nat} (h : ∀ pre, pre <+: ts → pre.foldl openBehind n ≤ d) :
    bracketDepth ts + n ≤ d := by
  induction ts generalizing n with
  | nil => simpa [bracketDepth] using h [] List.prefix_rfl
  | cons t ts ih =>
    have hn : n ≤ d := h [] List.nil_prefix
    have hrest : bracketDepth ts + openBehind n t ≤ d :=
      ih fun pre hpre => h (t :: pre) ((List.prefix_cons_inj t).2 hpre)
    rw [bracketDepth]
    unfold openBehind at hrest
    split_ifs at hrest ⊢ <;> omega

theorem bracketDepth_le {d : Nat} (h : ∀ pre, pre <+: ts → unclosed pre ≤ d) :
    bracketDepth ts ≤ d := bracketDepth_add_le h

end Brackets

namespace Lexer

theorem readToken_not_tooDeep {c c' : Cursor} {e : Failure} (h : readToken c = .error e c') :
    ¬ e.IsTooDeep := by
  cases nextToken_iff.1 h <;> nofun

theorem peek_answers (l : Lexer) : match Lexer.peek l with
    | .ok t l' => t = l.scan.tokens.head? ∧ l'.scan.tokens = l.scan.tokens
    | .error e _ => l.scan.tokens = [] ∧ ¬ e.IsTooDeep := by
  obtain ⟨c, _ | t⟩ := l
  · rw [peek_eq]
    cases hr : readToken c with
    | error e c' =>
      dsimp only
      rw [Lexer.scan, Scan.ofCursor_error hr]
      exact ⟨rfl, readToken_not_tooDeep hr⟩
    | ok t c' =>
      cases t with
      | none =>
        dsimp only
        rw [Lexer.scan, Lexer.scan, Scan.ofCursor_none hr, ofCursor_end (readToken_none hr).1]
        exact ⟨rfl, rfl⟩
      | some t =>
        dsimp only
        rw [Lexer.scan, Lexer.scan, Scan.ofCursor_some hr]
        exact ⟨rfl, rfl⟩
  · exact ⟨rfl, rfl⟩

theorem next_answers (l : Lexer) : match Lexer.next l with
    | .ok t l' => t = l.scan.tokens.head? ∧ l'.scan.tokens = l.scan.tokens.tail
    | .error e _ => l.scan.tokens = [] ∧ ¬ e.IsTooDeep := by
  obtain ⟨c, _ | t⟩ := l
  · rw [next_eq]
    cases hr : readToken c with
    | error e c' =>
      dsimp only
      rw [Lexer.scan, Scan.ofCursor_error hr]
      exact ⟨rfl, readToken_not_tooDeep hr⟩
    | ok t c' =>
      cases t with
      | none =>
        dsimp only
        rw [Lexer.scan, Lexer.scan, Scan.ofCursor_none hr, ofCursor_end (readToken_none hr).1]
        exact ⟨rfl, rfl⟩
      | some t =>
        dsimp only
        rw [Lexer.scan, Lexer.scan, Scan.ofCursor_some hr]
        exact ⟨rfl, rfl⟩
  · exact ⟨rfl, rfl⟩

end Lexer

namespace Parser

variable {α β : Type} {n k : Nat} {P Q R : List Token → Prop}

/-- From tokens as stated first, the gauge makes no difference and shows at most `k` more than it
does at the start, what is left is as stated then, and what is refused as too deep is so because
there are less than `k` levels. -/
def Metered (n k : Nat) (P Q : List Token → Prop) (g : Parser (Gauged Lexer) α)
    (p : Parser Lexer α) : Prop :=
  ∀ s, P s.source.scan.tokens →
    (∃ m, m ≤ max s.most (s.active + k) ∧ g s = Gauged.beside s.active m (p s.source)) ∧
      match p s.source with
      | .ok _ l => Q l.scan.tokens
      | .error e _ => e.IsTooDeep → n < k

namespace Metered

theorem imp {n' k' : Nat} {P' Q' : List Token → Prop} {g : Parser (Gauged Lexer) α}
    {p : Parser Lexer α} (h : Metered n k P Q g p) (hk : k ≤ k') (hn : n < k → n' < k')
    (hp : ∀ ts, P' ts → P ts) (hq : ∀ ts, Q ts → Q' ts) : Metered n' k' P' Q' g p := by
  intro s hs
  obtain ⟨⟨m, hm, hg⟩, hleft⟩ := h s (hp _ hs)
  refine ⟨⟨m, by omega, hg⟩, ?_⟩
  cases hr : p s.source with
  | ok a l =>
    rw [hr] at hleft
    exact hq _ hleft
  | error e l =>
    rw [hr] at hleft
    exact fun he => hn (hleft he)

theorem plain {p : Parser Lexer α}
    (h : ∀ l : Lexer, P l.scan.tokens → match p l with
      | .ok _ l' => Q l'.scan.tokens
      | .error e _ => ¬ e.IsTooDeep) : Metered n k P Q (Gauged.reading p) p := by
  intro s hs
  have hleft := h s.source hs
  refine ⟨⟨s.most, by omega, rfl⟩, ?_⟩
  cases hr : p s.source with
  | ok a l =>
    rw [hr] at hleft
    exact hleft
  | error e l =>
    rw [hr] at hleft
    exact fun he => absurd he hleft

theorem pure {a : α} (h : ∀ ts, P ts → Q ts) : Metered n k P Q (Pure.pure a) (Pure.pure a) :=
  plain (p := Pure.pure a) fun _ => h _

theorem failAt (p : Position) {c : Cause} (hc : c ≠ .nestingTooDeep) :
    Metered n k P Q (Parser.failAt p c : Parser (Gauged Lexer) α) (Parser.failAt p c) :=
  plain (p := Parser.failAt p c) fun _ _ => hc

theorem fail {c : Cause} (hc : c ≠ .nestingTooDeep) :
    Metered n k P Q (Parser.fail c : Parser (Gauged Lexer) α) (Parser.fail c) :=
  plain (p := Parser.fail c) fun _ _ => hc

theorem exhausted :
    Metered n k P Q (throw .exhausted : Parser (Gauged Lexer) α) (throw .exhausted) :=
  plain (p := throw .exhausted) fun _ _ => id

theorem tooDeep (hk : 0 < k) : Metered 0 k P Q
    (Parser.fail .nestingTooDeep : Parser (Gauged Lexer) α) (Parser.fail .nestingTooDeep) :=
  fun s _ => ⟨⟨s.most, by omega, rfl⟩, fun _ => hk⟩

theorem bind {g : Parser (Gauged Lexer) α} {p : Parser Lexer α} {f : α → Parser (Gauged Lexer) β}
    {q : α → Parser Lexer β} (h : Metered n k P Q g p) (hf : ∀ a, Metered n k Q R (f a) (q a)) :
    Metered n k P R (g >>= f) (p >>= q) := by
  intro s hs
  obtain ⟨⟨m, hm, hg⟩, hleft⟩ := h s hs
  cases hr : p s.source with
  | error e l =>
    rw [hr] at hg hleft
    rw [bind_of_error hr, bind_of_error hg]
    exact ⟨⟨m, hm, rfl⟩, hleft⟩
  | ok a l =>
    rw [hr] at hg hleft
    rw [bind_of_ok hr, bind_of_ok hg]
    obtain ⟨⟨m', hm', hg'⟩, hleft'⟩ := hf a ⟨l, s.active, m⟩ hleft
    dsimp only at hm'
    exact ⟨⟨m', by omega, hg'⟩, hleft'⟩

theorem look {f : Option Token → Parser (Gauged Lexer) α} {q : Option Token → Parser Lexer α}
    (hf : ∀ t, Metered n k (fun ts => P ts ∧ ts.head? = t) Q (f t) (q t)) :
    Metered n k P Q (peek >>= f) (peek >>= q) := by
  intro s hs
  have hpeek := Lexer.peek_answers s.source
  have hgauge : (peek : Parser (Gauged Lexer) (Option Token)) s =
      Gauged.beside s.active s.most (Lexer.peek s.source) := rfl
  have hplain : (peek : Parser Lexer (Option Token)) s.source = Lexer.peek s.source := rfl
  cases hr : Lexer.peek s.source with
  | error e l =>
    rw [hr] at hpeek hgauge hplain
    rw [bind_of_error hplain, bind_of_error hgauge]
    exact ⟨⟨s.most, by omega, rfl⟩, fun he => absurd he hpeek.2⟩
  | ok t l =>
    rw [hr] at hpeek hgauge hplain
    rw [bind_of_ok hplain, bind_of_ok hgauge]
    obtain ⟨ht, htokens⟩ := hpeek
    exact hf t ⟨l, s.active, s.most⟩ ⟨htokens ▸ hs, htokens ▸ ht.symm⟩

theorem next (h : ∀ ts, P ts → Q ts.tail) :
    Metered n k P Q (Parser.next : Parser (Gauged Lexer) (Option Token)) Parser.next := by
  refine plain (p := Lexer.next) fun l hl => ?_
  have hnext := Lexer.next_answers l
  cases hr : Lexer.next l with
  | error e l' =>
    rw [hr] at hnext
    exact hnext.2
  | ok t l' =>
    rw [hr] at hnext
    change Q l'.scan.tokens
    rw [show l'.scan.tokens = _ from hnext.2]
    exact h _ hl

theorem expect {wanted : Lexeme → Bool} {cause : Cause} (hc : cause ≠ .nestingTooDeep)
    (h : ∀ t ts, P (t :: ts) → wanted t.lexeme → Q ts) :
    Metered n k P Q (Parser.expect wanted cause : Parser (Gauged Lexer) Token)
      (Parser.expect wanted cause) := by
  refine .look fun t => ?_
  cases t with
  | none => exact .fail hc
  | some t =>
    dsimp only
    split
    · next hw =>
      refine .bind (.next fun ts hts => ?_) fun _ => .pure fun _ => id
      obtain ⟨ts, rfl⟩ := List.head?_eq_some_iff.1 hts.2
      exact h t ts hts.1 hw
    · exact .fail hc

theorem mark {text : String} (h : ∀ t ts, P (t :: ts) → t.lexeme = .punctuation text → Q ts) :
    Metered n k P Q (expectPunctuation text : Parser (Gauged Lexer) Token)
      (expectPunctuation text) :=
  .expect (by simp) fun t ts ht hw => h t ts ht (of_decide_eq_true hw)

theorem unexpected : Metered n k P Q (Parser.unexpected : Parser (Gauged Lexer) α)
    Parser.unexpected := by
  refine .look fun t => ?_
  cases t with
  | none => exact .fail (by simp)
  | some t => exact .fail (by simp)

theorem counted {g : Parser (Gauged Lexer) α} {p : Parser Lexer α} (h : Metered n k P Q g p) :
    Metered (n + 1) (k + 1) P Q (Gauged.counted g) p := by
  intro s hs
  obtain ⟨⟨m, hm, hg⟩, hleft⟩ := h s.enter hs
  have hsource : s.enter.source = s.source := rfl
  rw [hsource] at hg hleft
  refine ⟨⟨m, ?_, ?_⟩, ?_⟩
  · simp only [Gauged.enter] at hm
    omega
  · unfold Gauged.counted
    rw [hg]
    cases p s.source <;> rfl
  · cases hr : p s.source with
    | ok a l =>
      rw [hr] at hleft
      exact hleft
    | error e l =>
      rw [hr] at hleft
      exact fun he => Nat.succ_lt_succ (hleft he)

theorem seen {S : List Token → Prop} {g : Parser (Gauged Lexer) α} {p : Parser Lexer α}
    (h : Metered n k P Q g p) : Metered n k (fun ts => P ts ∧ S ts) Q g p :=
  h.imp (Nat.le_refl k) id (fun _ hts => hts.1) fun _ => id

end Metered

def Within (d : Nat) (ts : List Token) : Prop := bracketDepth ts ≤ d

def Before (d : Nat) (ts : List Token) : Prop :=
  bracketDepth ts ≤ d ∧ ∀ t ∈ ts.head?, t.lexeme.Neutral

section Productions

variable {d rounds : Nat}

namespace Metered

theorem next_neutral :
    Metered n k (Before d) (Within d) (Parser.next : Parser (Gauged Lexer) (Option Token))
      Parser.next := by
  refine .next fun ts ⟨hts, ht⟩ => ?_
  cases ts with
  | nil => exact Nat.zero_le d
  | cons t ts =>
    rw [bracketDepth_neutral (ht t rfl)] at hts
    exact hts

theorem mark_neutral {text : String} (h : (Lexeme.punctuation text).Neutral) :
    Metered n k (Within d) (Within d) (expectPunctuation text : Parser (Gauged Lexer) Token)
      (expectPunctuation text) := by
  refine .mark fun t ts hts hx => ?_
  rw [← hx] at h
  rwa [Within, bracketDepth_neutral h] at hts

theorem identifier : Metered n k (Within d) (Within d)
    (expectIdentifier : Parser (Gauged Lexer) Token) expectIdentifier := by
  refine .expect (by simp) fun t ts hts hw => ?_
  have hkind : t.lexeme.kind = .identifier := of_decide_eq_true hw
  rwa [Within, bracketDepth_neutral (Lexeme.neutral_of_kind (by simp [hkind]))] at hts

theorem opening {text : String} (ht : text = openParen ∨ text = openBrace)
    {f : Token → Parser (Gauged Lexer) α} {q : Token → Parser Lexer α}
    (h : ∀ b, d = b + 1 → ∀ t, Metered n k (Within b) Q (f t) (q t)) :
    Metered n k (Within d) Q (expectPunctuation text >>= f) (expectPunctuation text >>= q) := by
  refine .bind (Q := fun ts => bracketDepth ts + 1 ≤ d) (.mark fun t ts hts hx => ?_) fun t => ?_
  · have hopen := Lexeme.opens_bracket ht
    rw [← hx] at hopen
    rwa [Within, bracketDepth_open hopen] at hts
  · intro s hs
    have hb : d = d - 1 + 1 := by omega
    exact h (d - 1) hb t s (Nat.le_sub_one_of_lt hs)

theorem closing {text : String} (ht : text = closeParen ∨ text = closeBrace) :
    Metered n k (Within d) (Within (d + 1))
      (expectPunctuation text : Parser (Gauged Lexer) Token) (expectPunctuation text) := by
  refine .mark fun t ts hts hx => ?_
  obtain ⟨hopen, hclose⟩ := Lexeme.closes_bracket ht
  rw [← hx] at hopen hclose
  rw [Within, bracketDepth_close hopen hclose] at hts
  rw [Within]
  omega

end Metered

section Lists

variable {item : Parser (Gauged Lexer) α} {item' : Parser Lexer α}

theorem items_metered (stop : String) {separator : String}
    (hs : (Lexeme.punctuation separator).Neutral)
    (hi : Metered n k (Within d) (Within d) item item') (first : Bool) :
    Metered n k (Within d) (Within d) (items stop separator item rounds first)
      (items stop separator item' rounds first) := by
  induction rounds generalizing first with
  | zero => exact .exhausted
  | succ rounds ih =>
    have hfrom : Metered n k (Within d) (Within d) (itemsFrom stop separator item rounds)
        (itemsFrom stop separator item' rounds) := by
      refine .look fun t => ?_
      split
      · exact .pure fun _ hts => hts.1
      · exact hi.seen.bind fun x => (ih false).bind fun xs => .pure fun _ => id
    cases first with
    | true =>
      rw [items_first, items_first]
      refine .look fun t => ?_
      split
      · exact .pure fun _ hts => hts.1
      · exact hfrom.seen
    | false =>
      rw [items_later, items_later]
      refine .look fun t => ?_
      split
      · exact .pure fun _ hts => hts.1
      · exact .bind (Metered.mark_neutral hs).seen fun _ => hfrom

theorem delimited_metered {start stop separator : String}
    (ho : start = openParen ∨ start = openBrace) (hc : stop = closeParen ∨ stop = closeBrace)
    (hs : (Lexeme.punctuation separator).Neutral)
    (hi : ∀ b, d = b + 1 → Metered n k (Within b) (Within b) item item') :
    Metered n k (Within d) (Within d) (delimited rounds start stop separator item)
      (delimited rounds start stop separator item') := by
  refine .opening ho fun b hb _ => ?_
  subst hb
  exact .bind (items_metered stop hs (hi b rfl) true) fun xs =>
    .bind (.closing hc) fun _ => .pure fun _ => id

end Lists

theorem neutral_comma : (Lexeme.punctuation comma).Neutral := ⟨rfl, rfl⟩

theorem neutral_semicolon : (Lexeme.punctuation semicolon).Neutral := ⟨rfl, rfl⟩

theorem bindings_metered {operand : Parser (Gauged Lexer) Node} {operand' : Parser Lexer Node}
    (ho : Metered n k (Within d) (Within d) operand operand') (left : Node) (least : Int) :
    Metered n k (Within d) (Within d) (bindings operand rounds left least)
      (bindings operand' rounds left least) := by
  induction rounds generalizing left least with
  | zero => exact .exhausted
  | succ rounds ih =>
    rw [bindings_succ, bindings_succ]
    refine .look fun t => ?_
    cases hop : operatorText? t with
    | none => exact .pure fun _ hts => hts.1
    | some op =>
      cases hp : bindingPower? op with
      | none => simpa only [hp] using .fail (by simp)
      | some power =>
        simp only [hp]
        split
        · exact .pure fun _ hts => hts.1
        · have hnext : Metered n k (fun ts => Within d ts ∧ ts.head? = t) (Within d)
              (Parser.next : Parser (Gauged Lexer) (Option Token)) Parser.next := by
            refine Metered.next_neutral.imp (Nat.le_refl k) id (fun ts hts => ?_) fun _ => id
            obtain ⟨u, rfl, hu⟩ := operatorText?_some hop
            refine ⟨hts.1, fun v hv => ?_⟩
            obtain rfl := Option.some.inj (hts.2.symm.trans hv)
            exact Lexeme.neutral_of_kind (by simp [hu, Lexeme.kind])
          exact hnext.bind fun _ => ho.bind fun x => (ih x power).bind fun right => ih _ least

theorem invocation_metered {argument : Parser (Gauged Lexer) Node} {argument' : Parser Lexer Node}
    (ha : ∀ b, d = b + 1 → Metered n k (Within b) (Within b) argument argument') (node : Node) :
    Metered n k (Within d) (Within d) (invocation rounds argument node)
      (invocation rounds argument' node) := by
  rw [invocation_eq, invocation_eq]
  refine .look fun t => ?_
  split
  · exact (delimited_metered (.inl rfl) (.inl rfl) neutral_comma ha).seen.bind fun _ =>
      .pure fun _ => id
  · exact .pure fun _ hts => hts.1

theorem name?_metered : Metered n k (Within d) (Within d)
    (name? : Parser (Gauged Lexer) (Option String)) name? := by
  rw [name?_eq, name?_eq]
  refine .look fun t => ?_
  split
  · exact Metered.identifier.seen.bind fun _ => .pure fun _ => id
  · exact .pure fun _ hts => hts.1

theorem parameters_metered : Metered n k (Within d) (Within d)
    (parameters rounds : Parser (Gauged Lexer) (List String)) (parameters rounds) := by
  rw [parameters_eq, parameters_eq]
  refine .look fun t => ?_
  split
  · refine (delimited_metered (.inl rfl) (.inl rfl) neutral_comma
      fun _ _ => .identifier).seen.bind fun params => ?_
    unfold declared
    split
    · exact .failAt _ (by simp)
    · exact .pure fun _ => id
  · exact .fail (by simp)

def Starting (signs : Bool) (d : Nat) (ts : List Token) : Prop :=
  bracketDepth ts ≤ d ∧
    (signs = false → ∀ t ∈ ts.head?, isOperatorAmong signOperators t.lexeme = false)

structure Level.Metered (n : Nat) (inner : Level (Gauged Lexer)) (inner' : Level Lexer) : Prop where
  operand (signs : Bool) (d : Nat) : Parser.Metered n (2 * d + 1 + signs.toNat)
    (Starting signs d) (Within d) inner.operand inner'.operand
  expression (d : Nat) : Parser.Metered n (2 * d + 2) (Within d) (Within d) inner.expression
    inner'.expression

variable {inner : Level (Gauged Lexer)} {inner' : Level Lexer}

theorem Level.Metered.inside (hi : inner.Metered n inner') (hk : 2 * d ≤ k) (b : Nat)
    (hb : d = b + 1) :
    Parser.Metered n k (Within b) (Within b) inner.expression inner'.expression :=
  (hi.expression b).imp (by omega) (by omega) (fun _ => id) fun _ => id

theorem group_metered (hi : inner.Metered n inner') (hk : 2 * d ≤ k) :
    Metered n k (Within d) (Within d) (group inner) (group inner') := by
  refine .opening (.inl rfl) fun b hb _ => ?_
  refine (hi.inside hk b hb).bind fun node => ?_
  subst hb
  exact .bind (.closing (.inl rfl)) fun _ => .pure fun _ => id

theorem block_metered (hi : inner.Metered n inner') (hk : 2 * d ≤ k) :
    Metered n k (Within d) (Within d) (block rounds inner) (block rounds inner') :=
  (delimited_metered (.inr rfl) (.inr rfl) neutral_semicolon (hi.inside hk)).bind fun _ =>
    .pure fun _ => id

theorem declaration_metered (hi : inner.Metered n inner') (hk : 2 * d ≤ k) :
    Metered n k (Before d) (Within d) (declaration rounds inner) (declaration rounds inner') := by
  rw [declaration_eq, declaration_eq]
  refine .bind .next_neutral fun _ => .bind name?_metered fun name => ?_
  refine .bind parameters_metered fun params => .look fun t => ?_
  split
  · exact (block_metered hi hk).seen.bind fun body => .pure fun _ => id
  · exact .fail (by simp)

theorem not_operator_of_takesSign {x : Lexeme} (choices : List String) (h : takesSign x) :
    isOperatorAmong choices x = false := by
  cases x with
  | operator o => cases h
  | _ => rfl

theorem signed_metered (hi : inner.Metered n inner') (hk : 2 * d + 1 ≤ k) :
    Metered n k (Within d) (Within d) (signed inner) (signed inner') := by
  rw [signed_eq, signed_eq]
  have hsign : Metered n k (Within d) (Within d)
      (expectOperator signOperators : Parser (Gauged Lexer) Token)
      (expectOperator signOperators) := by
    refine .expect (by simp) fun t ts hts hw => ?_
    rwa [Within, bracketDepth_neutral (Lexeme.neutral_of_operator hw)] at hts
  refine hsign.bind fun sign => .look fun t => ?_
  split
  · next ht =>
    have hoperand : Metered n k (fun ts => Within d ts ∧ ts.head? = t) (Within d) inner.operand
        inner'.operand := by
      refine (hi.operand false d).imp hk (by simp; omega) (fun ts hts => ?_) fun _ => id
      refine ⟨hts.1, fun _ u hu => ?_⟩
      obtain rfl : t = some u := hts.2.symm.trans hu
      exact not_operator_of_takesSign signOperators ht
    exact hoperand.bind fun node => .pure fun _ => id
  · exact .fail (by simp)

theorem atom_metered (hi : inner.Metered n inner') (signs : Bool)
    (hk : 2 * d + signs.toNat ≤ k) :
    Metered n k (Starting signs d) (Within d) (atom rounds inner) (atom rounds inner') := by
  refine .look fun t => ?_
  cases t with
  | none => exact .unexpected
  | some t =>
    have hx := opening_spec t.lexeme
    have hwithin {g : Parser (Gauged Lexer) Node} {p : Parser Lexer Node}
        (h : Metered n k (Within d) (Within d) g p) :
        Metered n k (fun ts => Starting signs d ts ∧ ts.head? = some t) (Within d) g p :=
      h.imp (Nat.le_refl k) id (fun _ hts => hts.1.1) fun _ => id
    have hbefore {g : Parser (Gauged Lexer) Node} {p : Parser Lexer Node}
        (hneutral : t.lexeme.Neutral) (h : Metered n k (Before d) (Within d) g p) :
        Metered n k (fun ts => Starting signs d ts ∧ ts.head? = some t) (Within d) g p := by
      refine h.imp (Nat.le_refl k) id (fun ts hts => ⟨hts.1.1, fun u hu => ?_⟩) fun _ => id
      obtain rfl := Option.some.inj (hts.2.symm.trans hu)
      exact hneutral
    dsimp only
    cases ho : Opening.of t.lexeme with
    | group => exact hwithin (group_metered hi (by omega))
    | braces => exact hwithin (block_metered hi (by omega))
    | declaration =>
      rw [ho] at hx
      exact hbefore (by rw [hx]; exact ⟨rfl, rfl⟩) (declaration_metered hi (by omega))
    | sign =>
      rw [ho] at hx
      cases signs with
      | true => exact hwithin (signed_metered hi hk)
      | false =>
        intro s hs
        rw [hs.1.2 rfl t hs.2] at hx
        cases hx
    | truth value =>
      rw [ho] at hx
      exact hbefore (by rw [hx]; exact ⟨rfl, rfl⟩) (.bind .next_neutral fun _ => .pure fun _ => id)
    | leaf =>
      rw [ho] at hx
      exact hbefore (Lexeme.neutral_of_isLeaf hx) (.bind .next_neutral fun _ => .pure fun _ => id)
    | none => exact .unexpected

theorem operand_metered (hi : inner.Metered n inner') (signs : Bool) (d : Nat) :
    Metered (n + 1) (2 * d + 1 + signs.toNat) (Starting signs d) (Within d)
      (Gauged.counted (operand rounds inner)) (operand rounds inner') := by
  have hk : 2 * d + 1 + signs.toNat = 2 * d + signs.toNat + 1 := by omega
  rw [hk]
  exact .counted (.bind (atom_metered hi signs (Nat.le_refl _)) fun node =>
    invocation_metered (hi.inside (by omega)) node)

theorem level_metered (n : Nat) :
    (Gauged.level rounds n : Level (Gauged Lexer)).Metered n (level rounds n) := by
  induction n with
  | zero => exact ⟨fun _ _ => .tooDeep (by omega), fun _ => .tooDeep (by omega)⟩
  | succ n ih =>
    refine ⟨operand_metered ih, fun d => ?_⟩
    have hoperand : Metered (n + 1) (2 * d + 2) (Within d) (Within d)
        (Gauged.counted (operand rounds (Gauged.level rounds n)))
        (operand rounds (level rounds n)) :=
      (operand_metered ih true d).imp (Nat.le_refl _) id (fun _ hts => ⟨hts, nofun⟩) fun _ => id
    refine hoperand.bind fun node => (bindings_metered hoperand node 0).bind fun chain => ?_
    -- an argument list behind a whole chain takes a level too, though no operand is being read
    refine invocation_metered (fun b hb => ?_) chain
    exact (ih.expression b).imp (by omega) (by omega) (fun _ => id) fun _ => id

theorem statements_metered {statement : Parser (Gauged Lexer) Node}
    {statement' : Parser Lexer Node} (hs : Metered n k (Within d) (Within d) statement statement') :
    Metered n k (Within d) (Within d) (statements statement rounds)
      (statements statement' rounds) := by
  induction rounds with
  | zero => exact .exhausted
  | succ rounds ih =>
    have hrest (node : Node) : Metered n k (Within d) (Within d)
        (do let nodes ← statements statement rounds; return node :: nodes)
        (do let nodes ← statements statement' rounds; return node :: nodes) :=
      ih.bind fun nodes => .pure fun _ => id
    rw [statements_succ, statements_succ]
    refine .look fun t => ?_
    split
    · exact .pure fun _ hts => hts.1
    · refine hs.seen.bind fun node => .look fun t => ?_
      split
      · exact (hrest node).seen
      · exact (Metered.mark_neutral neutral_semicolon).seen.bind fun _ => hrest node

end Productions

theorem program_metered (limit : Nat) {source : List Char} {d : Nat}
    (h : bracketDepth (Scan.ofChars source).tokens ≤ d) :
    (∃ m, m ≤ 2 * d + 2 ∧ Gauged.program limit ⟨Lexer.ofChars source, 0, 0⟩ =
        Gauged.beside 0 m (program limit (Lexer.ofChars source))) ∧
      ∀ e l, program limit (Lexer.ofChars source) = .error e l → e.IsTooDeep →
        limit < 2 * d + 2 := by
  have hwithin : Within d (Lexer.ofChars source).scan.tokens := h
  have hstatements (rounds : Nat) : Metered limit (2 * d + 2) (Within d) (Within d)
      (statements (Gauged.level rounds limit).expression rounds)
      (statements (level rounds limit).expression rounds) :=
    statements_metered ((level_metered limit).expression d)
  obtain ⟨⟨m, hm, hg⟩, hleft⟩ := hstatements (TokenSource.size (Lexer.ofChars source) + 1)
    ⟨Lexer.ofChars source, 0, 0⟩ hwithin
  refine ⟨⟨m, by simpa using hm, hg⟩, fun e l hl => ?_⟩
  rw [show statements _ _ (Lexer.ofChars source) = .error e l from hl] at hleft
  exact hleft

theorem operandsAtOnce_eq {limit m : Nat} {source : List Char}
    (h : Gauged.program limit ⟨Lexer.ofChars source, 0, 0⟩ =
      Gauged.beside 0 m (program limit (Lexer.ofChars source))) :
    operandsAtOnce limit source = m := by
  rw [operandsAtOnce, h]
  cases program limit (Lexer.ofChars source) <;> rfl

theorem program_gauged (limit : Nat) (source : List Char) :
    Gauged.program limit ⟨Lexer.ofChars source, 0, 0⟩ =
      Gauged.beside 0 (operandsAtOnce limit source) (program limit (Lexer.ofChars source)) := by
  obtain ⟨⟨m, -, hm⟩, -⟩ := program_metered limit (Nat.le_refl _)
  rw [operandsAtOnce_eq hm]
  exact hm

theorem operandsAtOnce_le (limit : Nat) {source : List Char} {d : Nat}
    (h : bracketDepth (Scan.ofChars source).tokens ≤ d) :
    operandsAtOnce limit source ≤ 2 * d + 2 := by
  obtain ⟨⟨m, hle, hm⟩, -⟩ := program_metered limit h
  rwa [operandsAtOnce_eq hm]

end Parser

end RuleLang
