import RuleLang.Proofs.Outcome

/-!
Reading as a relation. A phrase reads a list of tokens up to a rest, and which rest that is
depends on one token ahead: what follows an operand or a chain is taken if it can be. The readers
return exactly what the relation gives, unless constructs nest too deeply.
-/
namespace RuleLang.Parser

open Vocabulary

variable {α β : Type}

def Ends (stop : String) (ts : List Token) : Prop :=
  ∀ t ∈ ts.head?, t.lexeme = .punctuation stop

/-- The items of a list up to its stop, each but the first with a separator before it. -/
inductive Listed (item : α → List Token → List Token → Prop) (stop separator : String) :
    Bool → List α → List Token → List Token → Prop
  | stop {first : Bool} {ts : List Token} :
    Ends stop ts → Listed item stop separator first [] ts ts
  | trailing {s c : Token} {rest : List Token} :
    s.lexeme ≠ .punctuation stop → s.lexeme = .punctuation separator →
    c.lexeme = .punctuation stop →
    Listed item stop separator false [] (s :: c :: rest) (c :: rest)
  | first {x : α} {xs : List α} {ts mid rest : List Token} :
    isMark stop ts.head? = false → item x ts mid →
    Listed item stop separator false xs mid rest →
    Listed item stop separator true (x :: xs) ts rest
  | next {s : Token} {x : α} {xs : List α} {ts mid rest : List Token} :
    s.lexeme ≠ .punctuation stop → s.lexeme = .punctuation separator →
    isMark stop ts.head? = false → item x ts mid →
    Listed item stop separator false xs mid rest →
    Listed item stop separator false (x :: xs) (s :: ts) rest

theorem Listed.mono {item item' : α → List Token → List Token → Prop} {stop separator : String}
    {first : Bool} {xs : List α} {ts rest : List Token}
    (h : Listed item stop separator first xs ts rest)
    (hi : ∀ x us mid, item x us mid → item' x us mid) :
    Listed item' stop separator first xs ts rest := by
  induction h with
  | stop he => exact .stop he
  | trailing hne hs hc => exact .trailing hne hs hc
  | first hm hx _ ih => exact .first hm (hi _ _ _ hx) ih
  | next hne hs hm hx _ ih => exact .next hne hs hm (hi _ _ _ hx) ih

theorem Listed.suffix {item : α → List Token → List Token → Prop} {stop separator : String}
    {first : Bool} {xs : List α} {ts rest : List Token}
    (h : Listed item stop separator first xs ts rest)
    (hl : ∀ x us mid, item x us mid → mid <:+ us) : rest <:+ ts := by
  induction h with
  | stop => exact List.suffix_rfl
  | trailing => exact List.suffix_cons _ _
  | first _ hx _ ih => exact ih.trans (hl _ _ _ hx)
  | next _ _ _ hx _ ih => exact (ih.trans (hl _ _ _ hx)).trans (List.suffix_cons _ _)

def Identifier (t : Token) (ts rest : List Token) : Prop :=
  ts = t :: rest ∧ t.lexeme.kind = .identifier

inductive Named : Option String → List Token → List Token → Prop
  | anonymous (ts : List Token) : Named none ts ts
  | name {t : Token} {rest : List Token} :
    t.lexeme.kind = .identifier → Named t.lexeme.text? (t :: rest) rest

def truthWord (value : Bool) : String := if value then trueWord else falseWord

/-- Whether a chain ends before these tokens if it has to bind more tightly than `least`. -/
def Stops (least : Int) (ts : List Token) : Prop :=
  ∀ op, operatorText? ts.head? = some op → ∃ power, bindingPower? op = some power ∧ power ≤ least

/-- What a reader is asked for and what it answers. -/
inductive Phrase
  | program (nodes : List Node)
  | expression (node : Node)
  | operand (node : Node)
  | atom (node : Node)
  | bindings (left : Node) (least : Int) (node : Node)
  | invocation (callee node : Node)

/-- Reading a phrase from the first list of tokens up to the second. The items of a list may be
read in any way that reads expressions. -/
inductive Reads : Phrase → List Token → List Token → Prop
  | finish : Reads (.program []) [] []
  | last {n : Node} {ts : List Token} : Reads (.expression n) ts [] → Reads (.program [n]) ts []
  | statement {n : Node} {ns : List Node} {s : Token} {ts rest : List Token} :
    Reads (.expression n) ts (s :: rest) → s.lexeme = .punctuation semicolon →
    Reads (.program ns) rest [] → Reads (.program (n :: ns)) ts []
  | expression {d chain n : Node} {ts m₁ m₂ rest : List Token} :
    Reads (.operand d) ts m₁ → Reads (.bindings d 0 chain) m₁ m₂ →
    Reads (.invocation chain n) m₂ rest → Reads (.expression n) ts rest
  | operand {a n : Node} {ts mid rest : List Token} :
    Reads (.atom a) ts mid → Reads (.invocation a n) mid rest → Reads (.operand n) ts rest
  | uncalled {callee : Node} {ts : List Token} :
    isMark openParen ts.head? = false → Reads (.invocation callee callee) ts ts
  | call {item : Node → List Token → List Token → Prop} {o c : Token} {callee : Node}
    {args : List Node} {ts rest : List Token} :
    (∀ n ts rest, item n ts rest → Reads (.expression n) ts rest) →
    o.lexeme = .punctuation openParen → c.lexeme = .punctuation closeParen →
    Listed item closeParen comma true args ts (c :: rest) →
    Reads (.invocation callee (.call callee args)) (o :: ts) rest
  | bound {left : Node} {least : Int} {ts : List Token} :
    Stops least ts → Reads (.bindings left least left) ts ts
  | pair {t : Token} {op : String} {power least : Int} {left d right n : Node}
    {ts m₁ m₂ rest : List Token} :
    t.lexeme = .operator op → bindingPower? op = some power → least < power →
    Reads (.operand d) ts m₁ → Reads (.bindings d power right) m₁ m₂ →
    Reads (.bindings (Node.joined op left right) least n) m₂ rest →
    Reads (.bindings left least n) (t :: ts) rest
  | group {o c : Token} {n : Node} {ts rest : List Token} :
    o.lexeme = .punctuation openParen → c.lexeme = .punctuation closeParen →
    Reads (.expression n) ts (c :: rest) → Reads (.atom n) (o :: ts) rest
  | block {item : Node → List Token → List Token → Prop} {o c : Token} {nodes : List Node}
    {ts rest : List Token} :
    (∀ n ts rest, item n ts rest → Reads (.expression n) ts rest) →
    o.lexeme = .punctuation openBrace → c.lexeme = .punctuation closeBrace →
    Listed item closeBrace semicolon true nodes ts (c :: rest) →
    Reads (.atom (Node.sequence nodes)) (o :: ts) rest
  | rule {item : Node → List Token → List Token → Prop} {r o c b d : Token}
    {name : Option String} {params : List Token} {nodes : List Node} {ts us vs rest : List Token} :
    (∀ n ts rest, item n ts rest → Reads (.expression n) ts rest) →
    r.lexeme = .keyword ruleWord → Named name ts (o :: us) →
    o.lexeme = .punctuation openParen → c.lexeme = .punctuation closeParen →
    Listed Identifier closeParen comma true params us (c :: b :: vs) →
    firstRepeated? [] params = none →
    b.lexeme = .punctuation openBrace → d.lexeme = .punctuation closeBrace →
    Listed item closeBrace semicolon true nodes vs (d :: rest) →
    Reads (.atom (.rule name (params.filterMap (·.lexeme.text?)) (Node.sequence nodes)))
      (r :: ts) rest
  | sign {s : Token} {n : Node} {ts rest : List Token} :
    isOperatorAmong signOperators s.lexeme → ts.head?.any (takesSign ·.lexeme) →
    Reads (.operand n) ts rest → Reads (.atom (applySign s n)) (s :: ts) rest
  | truth {t : Token} {value : Bool} {rest : List Token} :
    t.lexeme = .keyword (truthWord value) → Reads (.atom (.truth value)) (t :: rest) rest
  | leaf {t : Token} {rest : List Token} :
    t.lexeme.isLeaf → Reads (.atom (.leaf t)) (t :: rest) rest

/-- What is read as an operand and as an expression. -/
structure Readings where
  operand : Node → List Token → List Token → Prop
  expression : Node → List Token → List Token → Prop

namespace Readings

def all : Readings :=
  ⟨fun n ts rest => Reads (.operand n) ts rest, fun n ts rest => Reads (.expression n) ts rest⟩

variable (inner : Readings)

inductive Invocation (callee : Node) : Node → List Token → List Token → Prop
  | uncalled {ts : List Token} :
    isMark openParen ts.head? = false → Invocation callee callee ts ts
  | call {o c : Token} {args : List Node} {ts rest : List Token} :
    o.lexeme = .punctuation openParen → c.lexeme = .punctuation closeParen →
    Listed inner.expression closeParen comma true args ts (c :: rest) →
    Invocation callee (.call callee args) (o :: ts) rest

inductive Atom : Node → List Token → List Token → Prop
  | group {o c : Token} {n : Node} {ts rest : List Token} :
    o.lexeme = .punctuation openParen → c.lexeme = .punctuation closeParen →
    inner.expression n ts (c :: rest) → Atom n (o :: ts) rest
  | block {o c : Token} {nodes : List Node} {ts rest : List Token} :
    o.lexeme = .punctuation openBrace → c.lexeme = .punctuation closeBrace →
    Listed inner.expression closeBrace semicolon true nodes ts (c :: rest) →
    Atom (Node.sequence nodes) (o :: ts) rest
  | rule {r o c b d : Token} {name : Option String} {params : List Token} {nodes : List Node}
    {ts us vs rest : List Token} :
    r.lexeme = .keyword ruleWord → Named name ts (o :: us) →
    o.lexeme = .punctuation openParen → c.lexeme = .punctuation closeParen →
    Listed Identifier closeParen comma true params us (c :: b :: vs) →
    firstRepeated? [] params = none →
    b.lexeme = .punctuation openBrace → d.lexeme = .punctuation closeBrace →
    Listed inner.expression closeBrace semicolon true nodes vs (d :: rest) →
    Atom (.rule name (params.filterMap (·.lexeme.text?)) (Node.sequence nodes)) (r :: ts) rest
  | sign {s : Token} {n : Node} {ts rest : List Token} :
    isOperatorAmong signOperators s.lexeme → ts.head?.any (takesSign ·.lexeme) →
    inner.operand n ts rest → Atom (applySign s n) (s :: ts) rest
  | truth {t : Token} {value : Bool} {rest : List Token} :
    t.lexeme = .keyword (truthWord value) → Atom (.truth value) (t :: rest) rest
  | leaf {t : Token} {rest : List Token} : t.lexeme.isLeaf → Atom (.leaf t) (t :: rest) rest

def Operand (n : Node) (ts rest : List Token) : Prop :=
  ∃ a mid, inner.Atom a ts mid ∧ inner.Invocation a n mid rest

end Readings

inductive Bindings (operand : Node → List Token → List Token → Prop) :
    Node → Int → Node → List Token → List Token → Prop
  | bound {left : Node} {least : Int} {ts : List Token} :
    Stops least ts → Bindings operand left least left ts ts
  | pair {t : Token} {op : String} {power least : Int} {left d right n : Node}
    {ts m₁ m₂ rest : List Token} :
    t.lexeme = .operator op → bindingPower? op = some power → least < power →
    operand d ts m₁ → Bindings operand d power right m₁ m₂ →
    Bindings operand (Node.joined op left right) least n m₂ rest →
    Bindings operand left least n (t :: ts) rest

def Chain (operand : Node → List Token → List Token → Prop) (least : Int) (n : Node)
    (ts rest : List Token) : Prop :=
  ∃ d mid, operand d ts mid ∧ Bindings operand d least n mid rest

def Readings.Expression (inner : Readings) (operand : Node → List Token → List Token → Prop)
    (n : Node) (ts rest : List Token) : Prop :=
  ∃ chain mid, Chain operand 0 chain ts mid ∧ inner.Invocation chain n mid rest

inductive Statements (expression : Node → List Token → List Token → Prop) :
    List Node → List Token → Prop
  | finish : Statements expression [] []
  | last {n : Node} {ts : List Token} : expression n ts [] → Statements expression [n] ts
  | statement {n : Node} {ns : List Node} {s : Token} {ts rest : List Token} :
    expression n ts (s :: rest) → s.lexeme = .punctuation semicolon →
    Statements expression ns rest → Statements expression (n :: ns) ts

section Readings

variable {callee left n : Node} {least : Int} {ts rest : List Token}

theorem Readings.Invocation.reads (h : Readings.all.Invocation callee n ts rest) :
    Reads (.invocation callee n) ts rest := by
  cases h with
  | uncalled hm => exact .uncalled hm
  | call ho hc hl => exact .call (fun _ _ _ h => h) ho hc hl

theorem Readings.Atom.reads (h : Readings.all.Atom n ts rest) : Reads (.atom n) ts rest := by
  cases h with
  | group ho hc hn => exact .group ho hc hn
  | block ho hc hl => exact .block (fun _ _ _ h => h) ho hc hl
  | rule hr hname ho hc hps hf hb hd hl =>
    exact .rule (fun _ _ _ h => h) hr hname ho hc hps hf hb hd hl
  | sign hs ht hn => exact .sign hs ht hn
  | truth ht => exact .truth ht
  | leaf ht => exact .leaf ht

theorem Bindings.reads (h : Bindings Readings.all.operand left least n ts rest) :
    Reads (.bindings left least n) ts rest := by
  induction h with
  | bound hs => exact .bound hs
  | pair ht hp hlt hd _ _ ihright ihn => exact .pair ht hp hlt hd ihright ihn

theorem Statements.reads {ns : List Node} (h : Statements Readings.all.expression ns ts) :
    Reads (.program ns) ts [] := by
  induction h with
  | finish => exact .finish
  | last hn => exact .last hn
  | statement hn hs _ ih => exact .statement hn hs ih

end Readings

theorem opening_punctuation (text : String) : Opening.of (.punctuation text) =
    if text = openParen then .group else if text = openBrace then .braces else .none := by
  simp [Opening.of, isOperatorAmong, Lexeme.isLeaf]

theorem opening_keyword (text : String) : Opening.of (.keyword text) =
    if text = ruleWord then .declaration else if text = trueWord then .truth true
    else if text = falseWord then .truth false else .none := by
  simp [Opening.of, isOperatorAmong, Lexeme.isLeaf]

theorem opening_operator (text : String) : Opening.of (.operator text) =
    if isOperatorAmong signOperators (.operator text) then .sign else .none := by
  simp [Opening.of, Lexeme.isLeaf]

theorem opening_spec (x : Lexeme) : match Opening.of x with
    | .group => x = .punctuation openParen
    | .braces => x = .punctuation openBrace
    | .declaration => x = .keyword ruleWord
    | .sign => isOperatorAmong signOperators x
    | .truth value => x = .keyword (truthWord value)
    | .leaf => x.isLeaf
    | .none => True := by
  cases x with
  | punctuation text =>
    rw [opening_punctuation]
    split_ifs with hparen hbrace
    · rw [hparen]
    · rw [hbrace]
    · trivial
  | keyword text =>
    rw [opening_keyword]
    split_ifs with hrule htrue hfalse
    · rw [hrule]
    · rw [htrue]
      rfl
    · rw [hfalse]
      rfl
    · trivial
  | operator text =>
    rw [opening_operator]
    split_ifs with hs
    · exact hs
    · trivial
  | string text => rfl
  | number value => rfl
  | identifier name => rfl

theorem opening_group {x : Lexeme} (h : x = .punctuation openParen) : Opening.of x = .group := by
  rw [h, opening_punctuation, if_pos rfl]

theorem opening_braces {x : Lexeme} (h : x = .punctuation openBrace) :
    Opening.of x = .braces := by
  rw [h, opening_punctuation, if_neg (by decide), if_pos rfl]

theorem opening_declaration {x : Lexeme} (h : x = .keyword ruleWord) :
    Opening.of x = .declaration := by
  rw [h, opening_keyword, if_pos rfl]

theorem opening_sign {x : Lexeme} (h : isOperatorAmong signOperators x) :
    Opening.of x = .sign := by
  cases x with
  | operator text => rw [opening_operator, if_pos h]
  | _ => cases h

theorem opening_truth {x : Lexeme} {value : Bool} (h : x = .keyword (truthWord value)) :
    Opening.of x = .truth value := by
  rw [h]
  cases value <;> rfl

theorem opening_leaf {x : Lexeme} (h : x.isLeaf) : Opening.of x = .leaf := by
  cases x with
  | string | number | identifier => rfl
  | _ => cases h

/-- On a finished list the reader, if it succeeds, leaves an answer and a rest as stated. -/
def Yields (p : Parser Scan α) (ts : List Token) (Q : α → List Token → Prop) : Prop :=
  ∀ stop a s, p ⟨ts, stop, none⟩ = .ok a s → ∃ rest, s = ⟨rest, stop, none⟩ ∧ Q a rest

section Yields

variable {ts : List Token} {Q : α → List Token → Prop}

theorem Yields.mono {Q' : α → List Token → Prop} {p : Parser Scan α} (h : Yields p ts Q)
    (hq : ∀ a rest, Q a rest → Q' a rest) : Yields p ts Q' := by
  intro stop a s hp
  obtain ⟨rest, hs, ha⟩ := h stop a s hp
  exact ⟨rest, hs, hq a rest ha⟩

theorem Yields.pure {a : α} (h : Q a ts) : Yields (pure a) ts Q := by
  intro stop b s hb
  obtain ⟨rfl, rfl⟩ := EStateM.Result.ok.inj hb
  exact ⟨ts, rfl, h⟩

theorem Yields.bind {p : Parser Scan α} {f : α → Parser Scan β} {Q : β → List Token → Prop}
    (h : Yields p ts fun a mid => Yields (f a) mid Q) : Yields (p >>= f) ts Q := by
  intro stop b s hb
  obtain ⟨a, m, hp, hf⟩ := bind_ok.1 hb
  obtain ⟨mid, rfl, hmid⟩ := h stop a m hp
  exact hmid stop b s hf

theorem Yields.exhausted : Yields (throw .exhausted : Parser Scan α) ts Q := by
  intro stop a s h
  cases h

theorem Yields.fail (cause : Cause) : Yields (Parser.fail cause : Parser Scan α) ts Q := by
  intro stop a s h
  cases h

theorem Yields.look {f : Option Token → Parser Scan α} (h : Yields (f ts.head?) ts Q) :
    Yields (peek >>= f) ts Q := by
  intro stop a s hf
  cases ts with
  | nil => exact h stop a s hf
  | cons t ts => exact h stop a s hf

theorem Yields.next {Q : Option Token → List Token → Prop} (h : Q ts.head? ts.tail) :
    Yields next ts Q := by
  intro stop a s hn
  cases ts with
  | nil =>
    obtain ⟨rfl, rfl⟩ := EStateM.Result.ok.inj hn
    exact ⟨[], rfl, h⟩
  | cons t ts =>
    obtain ⟨rfl, rfl⟩ := EStateM.Result.ok.inj hn
    exact ⟨ts, rfl, h⟩

theorem Yields.expect {wanted : Lexeme → Bool} {cause : Cause} {Q : Token → List Token → Prop}
    (h : ∀ t rest, ts = t :: rest → wanted t.lexeme → Q t rest) :
    Yields (expect wanted cause) ts Q := by
  intro stop a s ha
  cases ts with
  | nil => simp [expect_nil] at ha
  | cons t ts =>
    rw [expect_cons] at ha
    split at ha
    · next hw =>
      obtain ⟨rfl, rfl⟩ := EStateM.Result.ok.inj ha
      exact ⟨ts, rfl, h t ts rfl hw⟩
    · cases ha

theorem Yields.mark {text : String} {Q : Token → List Token → Prop}
    (h : ∀ t rest, ts = t :: rest → t.lexeme = .punctuation text → Q t rest) :
    Yields (expectPunctuation text) ts Q :=
  .expect fun t rest ht hw => h t rest ht (of_decide_eq_true hw)

theorem Yields.unexpected : Yields (unexpected : Parser Scan α) ts Q := by
  apply Yields.look
  cases ts.head? <;> exact .fail _

end Yields

theorem isMark_some {text : String} {t : Token} :
    isMark text (some t) = true ↔ t.lexeme = .punctuation text := by
  simp [isMark]

theorem not_isMark {text : String} {t : Token} (h : t.lexeme ≠ .punctuation text) :
    isMark text (some t) = false :=
  Bool.eq_false_iff.2 fun hm => h (isMark_some.1 hm)

theorem ends_cons {stop : String} {c : Token} {ts : List Token} :
    Ends stop (c :: ts) ↔ c.lexeme = .punctuation stop := by
  simp [Ends]

theorem ends_iff {stop : String} {ts : List Token} :
    (ts.head?.isNone || isMark stop ts.head?) = true ↔ Ends stop ts := by
  cases ts <;> simp [Ends, isMark]

theorem itemsFrom_yields {item : α → List Token → List Token → Prop} {reader : Parser Scan α}
    {stop separator : String} {rounds : Nat} {ts : List Token}
    (hi : ∀ ts, Yields reader ts fun x rest => item x ts rest)
    (hrest : ∀ ts, Yields (items stop separator reader rounds false) ts fun xs rest =>
      Listed item stop separator false xs ts rest) :
    Yields (itemsFrom stop separator reader rounds) ts fun xs rest =>
      isMark stop ts.head? = true ∧ xs = [] ∧ rest = ts ∨
      ∃ x xs' mid, xs = x :: xs' ∧ isMark stop ts.head? = false ∧ item x ts mid ∧
        Listed item stop separator false xs' mid rest := by
  apply Yields.look
  cases hm : isMark stop ts.head? with
  | true => exact .pure (.inl ⟨rfl, rfl, rfl⟩)
  | false =>
    refine .bind ((hi ts).mono fun x mid hx => ?_)
    refine .bind ((hrest mid).mono fun xs rest hxs => ?_)
    exact .pure (.inr ⟨x, xs, mid, rfl, rfl, hx, hxs⟩)

theorem items_yields {item : α → List Token → List Token → Prop} {reader : Parser Scan α}
    (hi : ∀ ts, Yields reader ts fun x rest => item x ts rest) (stop separator : String)
    (rounds : Nat) (first : Bool) (ts : List Token) :
    Yields (items stop separator reader rounds first) ts fun xs rest =>
      Listed item stop separator first xs ts rest := by
  induction rounds generalizing first ts with
  | zero => exact .exhausted
  | succ rounds ih =>
    cases first with
    | true =>
      rw [items_first]
      apply Yields.look
      split
      · next h => exact .pure (.stop (ends_iff.1 h))
      · next hs =>
        refine (itemsFrom_yields hi (ih false)).mono fun xs rest hxs => ?_
        rcases hxs with ⟨hm, _⟩ | ⟨x, xs', mid, rfl, hm, hx, hxs'⟩
        · simp [hm] at hs
        · exact .first hm hx hxs'
    | false =>
      rw [items_later]
      apply Yields.look
      split
      · next h => exact .pure (.stop (ends_iff.1 h))
      · next hs =>
        refine .bind (.mark fun s us hts hsep => ?_)
        subst hts
        have hstop : s.lexeme ≠ .punctuation stop := by
          intro h
          exact hs (ends_iff.2 (ends_cons.2 h))
        refine (itemsFrom_yields hi (ih false)).mono fun xs rest hxs => ?_
        rcases hxs with ⟨hm, rfl, rfl⟩ | ⟨x, xs', mid, rfl, hm, hx, hxs'⟩
        · cases rest with
          | nil => cases hm
          | cons c rest => exact .trailing hstop hsep (isMark_some.1 hm)
        · exact .next hstop hsep hm hx hxs'

theorem delimited_yields {item : α → List Token → List Token → Prop} {reader : Parser Scan α}
    (hi : ∀ ts, Yields reader ts fun x rest => item x ts rest) (start stop separator : String)
    (rounds : Nat) (ts : List Token) :
    Yields (delimited rounds start stop separator reader) ts fun xs rest =>
      ∃ o us c, ts = o :: us ∧ o.lexeme = .punctuation start ∧ c.lexeme = .punctuation stop ∧
        Listed item stop separator true xs us (c :: rest) := by
  refine .bind (.mark fun o us hts ho => ?_)
  refine .bind ((items_yields hi stop separator rounds true us).mono fun xs mid hxs => ?_)
  refine .bind (.mark fun c rest hmid hc => ?_)
  subst hmid
  exact .pure ⟨o, us, c, hts, ho, hc, hxs⟩

theorem identifier_yields (ts : List Token) :
    Yields expectIdentifier ts fun t rest => Identifier t ts rest :=
  .expect fun _ _ hts hw => ⟨hts, of_decide_eq_true hw⟩

structure Level.Keeps (inner : Level Scan) (readings : Readings) : Prop where
  operand (ts : List Token) :
    Parser.Yields inner.operand ts fun n rest => readings.operand n ts rest
  expression (ts : List Token) :
    Parser.Yields inner.expression ts fun n rest => readings.expression n ts rest

structure Level.Yields (inner : Level Scan) : Prop where
  operand (ts : List Token) :
    Parser.Yields inner.operand ts fun n rest => Reads (.operand n) ts rest
  expression (ts : List Token) :
    Parser.Yields inner.expression ts fun n rest => Reads (.expression n) ts rest

theorem Level.Yields.keeps {inner : Level Scan} (h : inner.Yields) : inner.Keeps .all :=
  ⟨h.operand, h.expression⟩

section Productions

variable {inner : Level Scan} {readings : Readings} {rounds : Nat} {ts : List Token}

theorem stops_of_none {least : Int} (h : operatorText? ts.head? = none) : Stops least ts := by
  intro op hop
  rw [h] at hop
  cases hop

theorem bindings_keeps {operand : Parser Scan Node}
    {reading : Node → List Token → List Token → Prop}
    (ho : ∀ ts, Yields operand ts fun n rest => reading n ts rest) (left : Node) (least : Int)
    (ts : List Token) : Yields (bindings operand rounds left least) ts fun n rest =>
      Bindings reading left least n ts rest := by
  induction rounds generalizing left least ts with
  | zero => exact .exhausted
  | succ rounds ih =>
    rw [bindings_succ]
    apply Yields.look
    cases hop : operatorText? ts.head? with
    | none => exact .pure (.bound (stops_of_none hop))
    | some op =>
      dsimp only
      cases hp : bindingPower? op with
      | none => exact .fail _
      | some power =>
        dsimp only
        split
        · next hle =>
          refine .pure (.bound fun op' hop' => ?_)
          obtain rfl : op = op' := Option.some.inj (hop.symm.trans hop')
          exact ⟨power, hp, hle⟩
        · next hle =>
          obtain ⟨t, ht, hlex⟩ := operatorText?_some hop
          cases ts with
          | nil => cases ht
          | cons u ts =>
            obtain rfl : u = t := Option.some.inj ht
            refine .bind (.next (.bind ((ho ts).mono fun d m₁ hd => ?_)))
            refine .bind ((ih d power m₁).mono fun right m₂ hright => ?_)
            refine (ih _ least m₂).mono fun n rest hn => ?_
            exact .pair hlex hp (by omega) hd hright hn

theorem chain_keeps {operand : Parser Scan Node}
    {reading : Node → List Token → List Token → Prop}
    (ho : ∀ ts, Yields operand ts fun n rest => reading n ts rest) (least : Int)
    (ts : List Token) : Yields (do bindings operand rounds (← operand) least) ts fun n rest =>
      Chain reading least n ts rest :=
  .bind ((ho ts).mono fun d mid hd =>
    (bindings_keeps ho d least mid).mono fun _ _ hn => ⟨d, mid, hd, hn⟩)

theorem invocation_keeps (hi : inner.Keeps readings) (callee : Node) (ts : List Token) :
    Yields (invocation rounds inner.expression callee) ts fun n rest =>
      readings.Invocation callee n ts rest := by
  rw [invocation_eq]
  apply Yields.look
  split
  · refine .bind ((delimited_yields hi.expression openParen closeParen comma rounds ts).mono ?_)
    intro args rest hargs
    obtain ⟨o, us, c, rfl, ho, hc, hl⟩ := hargs
    exact .pure (.call ho hc hl)
  · next h => exact .pure (.uncalled (Bool.eq_false_iff.2 h))

theorem group_keeps (hi : inner.Keeps readings) :
    Yields (group inner) ts fun n rest => readings.Atom n ts rest := by
  refine .bind (.mark fun o us hts ho => ?_)
  refine .bind ((hi.expression us).mono fun n mid hn => ?_)
  refine .bind (.mark fun c rest hmid hc => ?_)
  subst hts hmid
  exact .pure (.group ho hc hn)

theorem block_keeps (hi : inner.Keeps readings) :
    Yields (block rounds inner) ts fun n rest => ∃ o us c nodes, ts = o :: us ∧
      o.lexeme = .punctuation openBrace ∧ c.lexeme = .punctuation closeBrace ∧
      n = Node.sequence nodes ∧ Listed readings.expression closeBrace semicolon true nodes us
        (c :: rest) := by
  refine .bind ((delimited_yields hi.expression openBrace closeBrace semicolon rounds ts).mono ?_)
  intro nodes rest hnodes
  obtain ⟨o, us, c, hts, ho, hc, hl⟩ := hnodes
  exact .pure ⟨o, us, c, nodes, hts, ho, hc, rfl, hl⟩

theorem name?_yields : Yields name? ts fun name rest => Named name ts rest := by
  rw [name?_eq]
  apply Yields.look
  split
  · refine .bind ((identifier_yields ts).mono fun t rest ht => ?_)
    obtain ⟨rfl, hk⟩ := ht
    exact .pure (.name hk)
  · exact .pure (.anonymous ts)

theorem parameters_yields :
    Yields (parameters rounds) ts fun names rest => ∃ o us c params, ts = o :: us ∧
      o.lexeme = .punctuation openParen ∧ c.lexeme = .punctuation closeParen ∧
      names = params.filterMap (·.lexeme.text?) ∧ firstRepeated? [] params = none ∧
      Listed Identifier closeParen comma true params us (c :: rest) := by
  rw [parameters_eq]
  apply Yields.look
  split
  · refine .bind ((delimited_yields identifier_yields openParen closeParen comma rounds ts).mono ?_)
    intro params rest hparams
    obtain ⟨o, us, c, hts, ho, hc, hl⟩ := hparams
    unfold declared
    cases hf : firstRepeated? [] params with
    | some t =>
      intro stop a s h
      cases h
    | none => exact .pure ⟨o, us, c, params, hts, ho, hc, rfl, hf, hl⟩
  · exact .fail _

theorem declaration_keeps (hi : inner.Keeps readings) {r : Token} {us : List Token}
    (hr : r.lexeme = .keyword ruleWord) :
    Yields (declaration rounds inner) (r :: us) fun n rest => readings.Atom n (r :: us) rest := by
  rw [declaration_eq]
  refine .bind (.next (.bind (name?_yields.mono fun name m₁ hname => ?_)))
  refine .bind (parameters_yields.mono fun names m₂ hnames => ?_)
  obtain ⟨o, vs, c, params, rfl, ho, hc, rfl, hf, hl⟩ := hnames
  apply Yields.look
  split
  · refine .bind ((block_keeps hi).mono fun body rest hbody => ?_)
    obtain ⟨b, ws, d, nodes, rfl, hb, hd, rfl, hlist⟩ := hbody
    exact .pure (.rule hr hname ho hc hl hf hb hd hlist)
  · exact .fail _

theorem signed_keeps (hi : inner.Keeps readings) :
    Yields (signed inner) ts fun n rest => readings.Atom n ts rest := by
  rw [signed_eq]
  refine .bind (.expect fun s us hts hs => ?_)
  subst hts
  apply Yields.look
  split
  · next ht =>
    refine .bind ((hi.operand us).mono fun n rest hn => ?_)
    exact .pure (.sign hs ht hn)
  · exact .fail _

theorem atom_keeps (hi : inner.Keeps readings) (ts : List Token) :
    Yields (atom rounds inner) ts fun n rest => readings.Atom n ts rest := by
  apply Yields.look
  cases ts with
  | nil => exact .unexpected
  | cons t ts =>
    have hx := opening_spec t.lexeme
    dsimp only [List.head?_cons]
    generalize Opening.of t.lexeme = opening at hx
    cases opening with
    | group => exact group_keeps hi
    | braces =>
      refine (block_keeps hi).mono fun n rest hn => ?_
      obtain ⟨o, us, c, nodes, hts, ho, hc, rfl, hl⟩ := hn
      rw [hts]
      exact .block ho hc hl
    | declaration => exact declaration_keeps hi hx
    | sign => exact signed_keeps hi
    | truth value => exact .bind (.next (.pure (.truth hx)))
    | leaf => exact .bind (.next (.pure (.leaf hx)))
    | none => exact .unexpected

theorem operand_keeps (hi : inner.Keeps readings) (ts : List Token) :
    Yields (operand rounds inner) ts fun n rest => readings.Operand n ts rest :=
  .bind ((atom_keeps hi ts).mono fun a mid ha =>
    (invocation_keeps hi a mid).mono fun _ _ hn => ⟨a, mid, ha, hn⟩)

theorem expression_keeps (hi : inner.Keeps readings) {operand : Parser Scan Node}
    {reading : Node → List Token → List Token → Prop}
    (ho : ∀ ts, Yields operand ts fun n rest => reading n ts rest) (ts : List Token) :
    Yields (expression rounds inner operand) ts fun n rest =>
      readings.Expression reading n ts rest :=
  .bind ((ho ts).mono fun d m₁ hd => .bind ((bindings_keeps ho d 0 m₁).mono fun chain m₂ hc =>
    (invocation_keeps hi chain m₂).mono fun _ _ hn => ⟨chain, m₂, ⟨d, m₁, hd, hc⟩, hn⟩))

theorem statements_nil_yields {statement : Parser Scan Node} (rounds : Nat) :
    Yields (statements statement rounds) [] fun ns rest => ns = [] ∧ rest = [] := by
  cases rounds with
  | zero => exact .exhausted
  | succ rounds =>
    rw [statements_succ]
    exact .look (.pure ⟨rfl, rfl⟩)

theorem statements_keeps {statement : Parser Scan Node}
    {reading : Node → List Token → List Token → Prop}
    (hs : ∀ ts, Yields statement ts fun n rest => reading n ts rest) (rounds : Nat)
    (ts : List Token) : Yields (statements statement rounds) ts fun ns rest =>
      rest = [] ∧ Statements reading ns ts := by
  induction rounds generalizing ts with
  | zero => exact .exhausted
  | succ rounds ih =>
    rw [statements_succ]
    apply Yields.look
    cases ts with
    | nil => exact .pure ⟨rfl, .finish⟩
    | cons t ts =>
      refine .bind ((hs _).mono fun n mid hn => .look ?_)
      cases mid with
      | nil =>
        refine .bind ((statements_nil_yields rounds).mono fun ns rest hns => ?_)
        obtain ⟨rfl, rfl⟩ := hns
        exact .pure ⟨rfl, .last hn⟩
      | cons s mid =>
        refine .bind (.mark fun s' us hts hs => ?_)
        obtain ⟨rfl, rfl⟩ := List.cons.inj hts
        refine .bind ((ih mid).mono fun ns rest hns => ?_)
        exact .pure ⟨hns.1, .statement hn hs hns.2⟩

end Productions

section Level

variable {inner : Level Scan} {rounds : Nat} {ts : List Token}

theorem bindings_yields {operand : Parser Scan Node}
    (ho : ∀ ts, Yields operand ts fun n rest => Reads (.operand n) ts rest) (left : Node)
    (least : Int) (ts : List Token) :
    Yields (bindings operand rounds left least) ts fun n rest =>
      Reads (.bindings left least n) ts rest :=
  (bindings_keeps ho left least ts).mono fun _ _ h => Bindings.reads h

theorem atom_yields (hi : inner.Yields) :
    Yields (atom rounds inner) ts fun n rest => Reads (.atom n) ts rest :=
  (atom_keeps hi.keeps ts).mono fun _ _ h => h.reads

theorem operand_yields (hi : inner.Yields) :
    Yields (operand rounds inner) ts fun n rest => Reads (.operand n) ts rest :=
  (operand_keeps hi.keeps ts).mono fun _ _ ⟨_, _, ha, hn⟩ => .operand ha.reads hn.reads

theorem level_yields (rounds depth : Nat) : (level rounds depth).Yields := by
  induction depth with
  | zero => exact ⟨fun _ => .fail _, fun _ => .fail _⟩
  | succ depth ih =>
    refine ⟨fun ts => operand_yields ih, fun ts => ?_⟩
    refine (expression_keeps ih.keeps (fun ts => operand_yields ih) ts).mono fun n rest h => ?_
    obtain ⟨chain, m₂, ⟨d, m₁, hd, hc⟩, hn⟩ := h
    exact .expression hd (Bindings.reads hc) hn.reads

theorem statements_yields (hi : inner.Yields) (rounds : Nat) (ts : List Token) :
    Yields (statements inner.expression rounds) ts fun ns rest =>
      rest = [] ∧ Reads (.program ns) ts [] :=
  (statements_keeps hi.expression rounds ts).mono fun _ _ h => ⟨h.1, Statements.reads h.2⟩

end Level

theorem Listed.length_le {item : α → List Token → List Token → Prop} {stop separator : String}
    {first : Bool} {xs : List α} {ts rest : List Token}
    (hi : ∀ x us mid, item x us mid → mid.length ≤ us.length)
    (h : Listed item stop separator first xs ts rest) : rest.length ≤ ts.length := by
  induction h with
  | stop _ => exact Nat.le_refl _
  | trailing _ _ _ => exact Nat.le_succ _
  | first _ hx _ ih => exact Nat.le_trans ih (hi _ _ _ hx)
  | next _ _ _ hx _ ih => exact Nat.le_succ_of_le (Nat.le_trans ih (hi _ _ _ hx))

def Phrase.size : Phrase → Nat
  | .program _ | .bindings _ _ _ | .invocation _ _ => 0
  | .expression _ | .operand _ | .atom _ => 1

theorem Reads.length_le {phrase : Phrase} {ts rest : List Token} (h : Reads phrase ts rest) :
    rest.length + phrase.size ≤ ts.length := by
  have listed_le {item : Node → List Token → List Token → Prop} {stop separator : String}
      {xs : List Node} {ts rest : List Token}
      (hi : ∀ x us mid, item x us mid → mid.length + 1 ≤ us.length)
      (h : Listed item stop separator true xs ts rest) : rest.length ≤ ts.length :=
    h.length_le fun x us mid hx => Nat.le_of_succ_le (hi x us mid hx)
  induction h with
  | finish | last | statement => exact Nat.zero_le _
  | expression _ _ _ ihd ihc ihn =>
    simp only [Phrase.size] at *
    omega
  | operand _ _ iha ihn =>
    simp only [Phrase.size] at *
    omega
  | uncalled | bound => exact Nat.le_refl _
  | call _ _ _ hl ih =>
    have hle := listed_le ih hl
    simp only [Phrase.size, List.length_cons] at *
    omega
  | pair _ _ _ _ _ _ ihd ihright ihn =>
    simp only [Phrase.size, List.length_cons] at *
    omega
  | group _ _ _ ih =>
    simp only [Phrase.size, List.length_cons] at *
    omega
  | block _ _ _ hl ih =>
    have hle := listed_le ih hl
    simp only [Phrase.size, List.length_cons] at *
    omega
  | rule _ _ hname _ _ hl _ _ _ hlist ih =>
    have hle := listed_le ih hlist
    have hparams := hl.length_le fun t us mid ht => by
      rw [ht.1]
      exact Nat.le_succ _
    cases hname <;> simp only [Phrase.size, List.length_cons] at * <;> omega
  | sign _ _ _ ih =>
    simp only [Phrase.size, List.length_cons] at *
    omega
  | truth | leaf => exact Nat.le_refl _

end RuleLang.Parser
