import RuleLang.Proofs.Gauge
import RuleLang.Proofs.Headway

/-!
How often readers are entered. A tally beside a lexer counts the readers that were entered since a
token was last delivered, and remembers the most that it has shown; it makes no other difference.
It never shows more than five, since each reader comes to a token before it can be entered again.
-/
namespace RuleLang

open RuleLang.Parser RuleLang.Vocabulary

structure Tallied where
  lexer : Lexer
  entered : Nat
  most : Nat

namespace Tallied

variable {α : Type}

/-- The outcome of a reader of a lexer, with the tally beside what it leaves. -/
def beside (entered most : Nat) : EStateM.Result Failure Lexer α → EStateM.Result Failure Tallied α
  | .ok a l => .ok a ⟨l, entered, most⟩
  | .error e l => .error e ⟨l, entered, most⟩

def peek : EStateM Failure Tallied (Option Token) := fun s =>
  beside s.entered s.most (Lexer.peek s.lexer)

/-- The count starts again behind a token that is delivered. At the end of the tokens it goes on. -/
def countBehind (entered : Nat) : EStateM.Result Failure Lexer (Option Token) → Nat
  | .ok (some _) _ => 0
  | _ => entered

def next : EStateM Failure Tallied (Option Token) := fun s =>
  beside (countBehind s.entered (Lexer.next s.lexer)) s.most (Lexer.next s.lexer)

instance : TokenSource Tallied where
  peek := peek
  next := next
  here s := s.lexer.here
  size s := TokenSource.size s.lexer

def enter (g : Parser Tallied α) : Parser Tallied α := fun s =>
  g ⟨s.lexer, s.entered + 1, max s.most (s.entered + 1)⟩

section Productions

variable (rounds : Nat) (inner : Level Tallied)

def delimited (start stop separator : String) (item : Parser Tallied α) :
    Parser Tallied (List α) :=
  enter (Parser.delimited rounds start stop separator item)

def bindings (operand : Parser Tallied Node) : Nat → Node → Int → Parser Tallied Node
  | 0, _, _ => throw .exhausted
  | rounds + 1, left, least => do
    match operatorText? (← Parser.peek) with
    | none => return left
    | some op =>
      match bindingPower? op with
      | none => fail (.unknownOperator op)
      | some power =>
        if power ≤ least then return left
        let _ ← Parser.next
        let d ← operand
        let right ← enter (bindings operand rounds d power)
        bindings operand rounds (Node.joined op left right) least

def invocation (argument : Parser Tallied Node) (node : Node) : Parser Tallied Node :=
  enter do
    if isMark openParen (← Parser.peek) then
      return .call node (← delimited rounds openParen closeParen comma argument)
    return node

def group : Parser Tallied Node := enter (Parser.group inner)

def block : Parser Tallied Node :=
  enter do return .sequence (← delimited rounds openBrace closeBrace semicolon inner.expression)

def parameters : Parser Tallied (List String) := do
  let t ← Parser.peek
  if isMark openParen t then
    let params ← delimited rounds openParen closeParen comma expectIdentifier
    declared params
  else fail .missingParameters

def declaration : Parser Tallied Node :=
  enter do
    let _ ← Parser.next
    let name ← name?
    let params ← parameters rounds
    let t ← Parser.peek
    if isMark openBrace t then
      let body ← block rounds inner
      return .rule name params body
    else fail .missingBody

def signed : Parser Tallied Node := enter (Parser.signed inner)

def atom : Parser Tallied Node := do
  match ← Parser.peek with
  | none => unexpected
  | some t =>
    match Opening.of t.lexeme with
    | .group => group inner
    | .braces => block rounds inner
    | .declaration => declaration rounds inner
    | .sign => signed inner
    | .truth value => do
      let _ ← Parser.next
      return .truth value
    | .leaf => do
      let _ ← Parser.next
      return .leaf t
    | .none => unexpected

def operand : Parser Tallied Node :=
  enter do invocation rounds inner.expression (← atom rounds inner)

def expression (operand : Parser Tallied Node) : Parser Tallied Node :=
  enter do
    let d ← operand
    let chain ← enter (bindings operand rounds d 0)
    invocation rounds inner.expression chain

end Productions

def level (rounds : Nat) : Nat → Level Tallied
  | 0 => ⟨enter (fail .nestingTooDeep), enter (fail .nestingTooDeep)⟩
  | depth + 1 =>
    let inner := level rounds depth
    ⟨operand rounds inner, expression rounds inner (operand rounds inner)⟩

def program (rounds limit : Nat) : Parser Tallied (List Node) :=
  enter (statements (level rounds limit).expression rounds)

end Tallied

def Call.tallied (rounds : Nat) : Call → Parser Tallied Answer
  | program => .nodes <$> Tallied.program rounds nestingLimit
  | expression => .node <$> (Tallied.level rounds nestingLimit).expression
  | operand => .node <$> (Tallied.level rounds nestingLimit).operand
  | group => .node <$> Tallied.group (Tallied.level rounds nestingLimit)
  | block => .node <$> Tallied.block rounds (Tallied.level rounds nestingLimit)
  | declaration => .node <$> Tallied.declaration rounds (Tallied.level rounds nestingLimit)
  | signed => .node <$> Tallied.signed (Tallied.level rounds nestingLimit)
  | invocation callee =>
    .node <$> Tallied.invocation rounds (Tallied.level rounds nestingLimit).expression callee
  | bindings left least =>
    .node <$> Tallied.enter
      (Tallied.bindings (Tallied.level rounds nestingLimit).operand rounds left least)
  | delimited start stop separator item =>
    .nodes <$> Tallied.delimited rounds start stop separator
      (itemReader (Tallied.level rounds nestingLimit) item)
  | c => c.reader rounds

/-- The most readers that are entered before a token is delivered. -/
def entryLimit : Nat := 5

namespace Parser

variable {α β : Type} {P P' : List Token → Prop} {i j k i' j' : Nat}

/-- From tokens as stated, and with a tally of at most `i`, the tally makes no difference, keeps
within the limit and is at most `j` if the reader succeeds. -/
def Tallies (P : List Token → Prop) (i j : Nat) (g : Parser Tallied α) (p : Parser Lexer α) :
    Prop :=
  ∀ s, P s.lexer.scan.tokens → s.entered ≤ i → s.most ≤ entryLimit →
    ∃ entered most, most ≤ entryLimit ∧ (∀ a l, p s.lexer = .ok a l → entered ≤ j) ∧
      g s = Tallied.beside entered most (p s.lexer)

def Anywhere (_ : List Token) : Prop := True

namespace Tallies

variable {g : Parser Tallied α} {p : Parser Lexer α}

theorem imp (h : Tallies P i j g p) (hP : ∀ ts, P' ts → P ts) (hi : i' ≤ i) (hj : j ≤ j') :
    Tallies P' i' j' g p := by
  intro s hs hn hm
  obtain ⟨n, m, hmost, hleft, hg⟩ := h s (hP _ hs) (Nat.le_trans hn hi) hm
  exact ⟨n, m, hmost, fun a l hl => Nat.le_trans (hleft a l hl) hj, hg⟩

theorem free (h : Tallies P i 0 g p) : Tallies P i j g p :=
  h.imp (fun _ => id) (Nat.le_refl i) (Nat.zero_le j)

theorem anywhere (h : Tallies Anywhere i j g p) (hi : i' ≤ i) : Tallies P i' j g p :=
  h.imp (fun _ _ => trivial) hi (Nat.le_refl j)

theorem pure (a : α) (hj : i ≤ j) : Tallies P i j (Pure.pure a) (Pure.pure a) :=
  fun s _ hn hm => ⟨s.entered, s.most, hm, fun _ _ _ => Nat.le_trans hn hj, rfl⟩

theorem refused (h : ∀ s, ∃ e, p s.lexer = .error e s.lexer ∧ g s = .error e s) :
    Tallies P i j g p := by
  intro s _ _ hm
  obtain ⟨e, hp, hg⟩ := h s
  rw [hp, hg]
  exact ⟨s.entered, s.most, hm, nofun, rfl⟩

theorem failAt (place : Position) (cause : Cause) :
    Tallies P i j (Parser.failAt place cause : Parser Tallied α) (Parser.failAt place cause) :=
  refused fun _ => ⟨_, rfl, rfl⟩

theorem fail (cause : Cause) :
    Tallies P i j (Parser.fail cause : Parser Tallied α) (Parser.fail cause) :=
  refused fun _ => ⟨_, rfl, rfl⟩

theorem exhausted : Tallies P i j (throw .exhausted : Parser Tallied α) (throw .exhausted) :=
  refused fun _ => ⟨_, rfl, rfl⟩

theorem bind {f : α → Parser Tallied β} {q : α → Parser Lexer β} (h : Tallies P i j g p)
    (hf : ∀ a, Tallies Anywhere j k (f a) (q a)) : Tallies P i k (g >>= f) (p >>= q) := by
  intro s hs hn hm
  obtain ⟨n, m, hmost, hleft, hg⟩ := h s hs hn hm
  cases hr : p s.lexer with
  | error e l =>
    rw [hr] at hg
    rw [bind_of_error hr, bind_of_error hg]
    exact ⟨n, m, hmost, nofun, rfl⟩
  | ok a l =>
    rw [hr] at hg
    rw [bind_of_ok hr, bind_of_ok hg]
    exact hf a ⟨l, n, m⟩ trivial (hleft a l hr) hmost

theorem look {f : Option Token → Parser Tallied α} {q : Option Token → Parser Lexer α}
    (hf : ∀ t, Tallies (fun ts => P ts ∧ ts.head? = t) i j (f t) (q t)) :
    Tallies P i j (peek >>= f) (peek >>= q) := by
  intro s hs hn hm
  have hpeek := Lexer.peek_answers s.lexer
  have htally : (peek : Parser Tallied (Option Token)) s =
      Tallied.beside s.entered s.most (Lexer.peek s.lexer) := rfl
  have hplain : (peek : Parser Lexer (Option Token)) s.lexer = Lexer.peek s.lexer := rfl
  cases hr : Lexer.peek s.lexer with
  | error e l =>
    rw [hr] at htally hplain
    rw [bind_of_error hplain, bind_of_error htally]
    exact ⟨s.entered, s.most, hm, nofun, rfl⟩
  | ok t l =>
    rw [hr] at hpeek htally hplain
    rw [bind_of_ok hplain, bind_of_ok htally]
    obtain ⟨ht, htokens⟩ := hpeek
    exact hf t ⟨l, s.entered, s.most⟩ ⟨htokens ▸ hs, htokens ▸ ht.symm⟩ hn hm

theorem next (hj : i ≤ j) :
    Tallies P i j (Parser.next : Parser Tallied (Option Token)) Parser.next := by
  intro s _ hn hm
  refine ⟨_, s.most, hm, fun t l hl => ?_, rfl⟩
  have hl' : Lexer.next s.lexer = .ok t l := hl
  rw [hl']
  cases t with
  | none => exact Nat.le_trans hn hj
  | some t => exact Nat.zero_le j

theorem delivered {t : Token} : Tallies (fun ts => P ts ∧ ts.head? = some t) i j
    (Parser.next : Parser Tallied (Option Token)) Parser.next := by
  intro s hs _ hm
  refine ⟨_, s.most, hm, fun u l hl => ?_, rfl⟩
  have hl' : Lexer.next s.lexer = .ok u l := hl
  have hnext := Lexer.next_answers s.lexer
  rw [hl'] at hnext ⊢
  obtain rfl : u = some t := hnext.1.trans hs.2
  exact Nat.zero_le j

theorem enter (h : Tallies P (i + 1) j g p) (hi : i + 1 ≤ entryLimit) :
    Tallies P i j (Tallied.enter g) p := by
  intro s hs hn hm
  exact h ⟨s.lexer, s.entered + 1, max s.most (s.entered + 1)⟩ hs (Nat.succ_le_succ hn)
    (Nat.max_le.2 ⟨hm, Nat.le_trans (Nat.succ_le_succ hn) hi⟩)

theorem expect (wanted : Lexeme → Bool) (cause : Cause) :
    Tallies P i 0 (Parser.expect wanted cause : Parser Tallied Token)
      (Parser.expect wanted cause) := by
  refine .look fun t => ?_
  cases t with
  | none => exact .fail cause
  | some t =>
    dsimp only
    split
    · exact .bind .delivered fun _ => .pure t (Nat.le_refl 0)
    · exact .fail cause

theorem unexpected : Tallies P i j (Parser.unexpected : Parser Tallied α) Parser.unexpected := by
  refine .look fun t => ?_
  cases t <;> exact .fail _

end Tallies

section Productions

variable {rounds : Nat}

section Lists

variable {item : Parser Tallied α} {item' : Parser Lexer α}

theorem items_tallies (stop separator : String) (hi : Tallies Anywhere 0 k item item')
    (first : Bool) (hf : first = true → i = 0) (hk : i ≤ k) :
    Tallies P i k (items stop separator item rounds first)
      (items stop separator item' rounds first) := by
  induction rounds generalizing P i first with
  | zero => exact .exhausted
  | succ rounds ih =>
    have hfrom {P : List Token → Prop} : Tallies P 0 k (itemsFrom stop separator item rounds)
        (itemsFrom stop separator item' rounds) := by
      refine .look fun t => ?_
      split
      · exact .pure [] (Nat.zero_le k)
      · exact (hi.anywhere (Nat.le_refl 0)).bind fun x =>
          (ih false (absurd · Bool.false_ne_true) (Nat.le_refl k)).bind fun xs =>
            .pure _ (Nat.le_refl k)
    cases first with
    | true =>
      obtain rfl := hf rfl
      rw [items_first, items_first]
      refine .look fun t => ?_
      split
      · exact .pure [] hk
      · exact hfrom
    | false =>
      rw [items_later, items_later]
      refine .look fun t => ?_
      split
      · exact .pure [] hk
      · exact .bind (.expect _ _) fun _ => hfrom

theorem delimited_tallies (start stop separator : String)
    (hi : Tallies Anywhere 0 k item item') (hl : i + 1 ≤ entryLimit) :
    Tallies P i 0 (Tallied.delimited rounds start stop separator item)
      (delimited rounds start stop separator item') := by
  refine .enter (.bind (.expect _ _) fun _ => ?_) hl
  refine .bind (items_tallies stop separator hi true (fun _ => rfl) (Nat.zero_le k)) fun xs => ?_
  exact .bind (.expect _ _) fun _ => .pure xs (Nat.le_refl 0)

end Lists

theorem bindings_tallies {operand : Parser Tallied Node} {operand' : Parser Lexer Node}
    (ho : Tallies Anywhere 0 2 operand operand') (left : Node) (least : Int) :
    Tallies P 3 3 (Tallied.bindings operand rounds left least)
      (bindings operand' rounds left least) := by
  induction rounds generalizing P left least with
  | zero => exact .exhausted
  | succ rounds ih =>
    rw [Tallied.bindings, bindings_succ]
    refine .look fun t => ?_
    cases hop : operatorText? t with
    | none => exact .pure left (Nat.le_refl 3)
    | some op =>
      cases hp : bindingPower? op with
      | none => simpa only [hp] using .fail _
      | some power =>
        simp only [hp]
        split
        · exact .pure left (Nat.le_refl 3)
        · obtain ⟨u, rfl, -⟩ := operatorText?_some hop
          refine .bind .delivered fun _ => ho.bind fun d => ?_
          exact (Tallies.enter (ih d power) (by decide)).bind fun right => ih _ least

theorem invocation_tallies {argument : Parser Tallied Node} {argument' : Parser Lexer Node}
    (ha : Tallies Anywhere 0 k argument argument') (node : Node) (hi : i + 2 ≤ entryLimit) :
    Tallies P i (i + 1) (Tallied.invocation rounds argument node)
      (invocation rounds argument' node) := by
  rw [invocation_eq]
  refine .enter (.look fun t => ?_) (by omega)
  split
  · exact (delimited_tallies _ _ _ ha hi).bind fun _ => .pure _ (Nat.zero_le _)
  · exact .pure node (Nat.le_refl _)

theorem name?_tallies : Tallies P i i (name? : Parser Tallied (Option String)) name? := by
  rw [name?_eq, name?_eq]
  refine .look fun t => ?_
  split
  · exact .bind (.expect _ _) fun _ => .pure _ (Nat.zero_le i)
  · exact .pure none (Nat.le_refl i)

theorem parameters_tallies (hi : i + 1 ≤ entryLimit) :
    Tallies P i 0 (Tallied.parameters rounds) (parameters rounds) := by
  rw [parameters_eq]
  refine .look fun t => ?_
  split
  · refine (delimited_tallies _ _ _ (.expect _ _) hi).bind fun params => ?_
    unfold declared
    split
    · exact .failAt _ _
    · exact .pure _ (Nat.le_refl 0)
  · exact .fail _

def Unsigned (ts : List Token) : Prop :=
  ∀ t ∈ ts.head?, isOperatorAmong signOperators t.lexeme = false

structure Level.Tallies (inner : Level Tallied) (inner' : Level Lexer) : Prop where
  operand : Parser.Tallies Anywhere 2 2 inner.operand inner'.operand
  unsigned : Parser.Tallies Unsigned 2 1 inner.operand inner'.operand
  expression : Parser.Tallies Anywhere 1 4 inner.expression inner'.expression

variable {inner : Level Tallied} {inner' : Level Lexer}

theorem Level.Tallies.inside (hi : inner.Tallies inner') :
    Parser.Tallies Anywhere 0 4 inner.expression inner'.expression :=
  hi.expression.anywhere (Nat.zero_le 1)

theorem group_tallies (hi : inner.Tallies inner') (hl : i + 1 ≤ entryLimit) :
    Tallies P i 0 (Tallied.group inner) (group inner') :=
  .enter (.bind (.expect _ _) fun _ => hi.inside.bind fun node =>
    .bind (.expect _ _) fun _ => .pure node (Nat.le_refl 0)) hl

theorem block_tallies (hi : inner.Tallies inner') (hl : i + 2 ≤ entryLimit) :
    Tallies P i 0 (Tallied.block rounds inner) (block rounds inner') :=
  .enter ((delimited_tallies _ _ _ hi.inside hl).bind fun _ => .pure _ (Nat.le_refl 0)) (by omega)

theorem declaration_tallies (hi : inner.Tallies inner') (hl : i + 2 ≤ entryLimit) :
    Tallies P i 0 (Tallied.declaration rounds inner) (declaration rounds inner') := by
  rw [declaration_eq]
  refine .enter (.bind (.next (Nat.le_refl _)) fun _ => ?_) (by omega)
  refine name?_tallies.bind fun name => (parameters_tallies hl).bind fun params => .look fun t => ?_
  split
  · exact (block_tallies hi (by decide)).bind fun body => .pure _ (Nat.le_refl 0)
  · exact .fail _

theorem signed_tallies (hi : inner.Tallies inner') (hl : i + 1 ≤ entryLimit) :
    Tallies P i 1 (Tallied.signed inner) (signed inner') := by
  have hsigned : Tallies P (i + 1) 1 (signed inner) (signed inner') := by
    rw [signed_eq, signed_eq]
    refine .bind (.expect _ _) fun sign => .look fun t => ?_
    cases t with
    | none => exact .fail _
    | some t =>
      split
      · next ht =>
        have hunsigned (ts : List Token) (hts : Anywhere ts ∧ ts.head? = some t) : Unsigned ts := by
          intro u hu
          obtain rfl := Option.some.inj (hts.2.symm.trans hu)
          exact not_operator_of_takesSign signOperators ht
        exact (hi.unsigned.imp hunsigned (Nat.zero_le 2) (Nat.le_refl 1)).bind fun node =>
          .pure _ (Nat.le_refl 1)
      · exact .fail _
  exact hsigned.enter hl

theorem atom_tallies (hi : inner.Tallies inner') (hj : 1 ≤ j ∨ ∀ ts, P ts → Unsigned ts) :
    Tallies P 3 j (Tallied.atom rounds inner) (atom rounds inner') := by
  refine .look fun t => ?_
  cases t with
  | none => exact .unexpected
  | some t =>
    have hx := opening_spec t.lexeme
    dsimp only
    cases ho : Opening.of t.lexeme with
    | group => exact (group_tallies hi (by decide)).free
    | braces => exact (block_tallies hi (by decide)).free
    | declaration => exact (declaration_tallies hi (by decide)).free
    | sign =>
      rcases hj with hj | hj
      · exact (signed_tallies hi (by decide)).imp (fun _ => id) (Nat.le_refl 3) hj
      · intro s hs
        rw [ho] at hx
        cases hx.symm.trans (hj _ hs.1 t hs.2)
    | truth value => exact .bind .delivered fun _ => .pure _ (Nat.zero_le j)
    | leaf => exact .bind .delivered fun _ => .pure _ (Nat.zero_le j)
    | none => exact .unexpected

theorem operand_tallies (hi : inner.Tallies inner') (hj : 1 ≤ j ∨ ∀ ts, P ts → Unsigned ts)
    (hl : j + 2 ≤ entryLimit) :
    Tallies P 2 (j + 1) (Tallied.operand rounds inner) (operand rounds inner') :=
  .enter (.bind (atom_tallies hi hj) fun node => invocation_tallies hi.inside node hl) (by decide)

theorem expression_tallies {operand : Parser Tallied Node} {operand' : Parser Lexer Node}
    (hi : inner.Tallies inner') (ho : Tallies Anywhere 2 2 operand operand') :
    Tallies P 1 4 (Tallied.expression rounds inner operand)
      (expression rounds inner' operand') := by
  have hchain (d : Node) : Tallies Anywhere 3 3 (Tallied.bindings operand rounds d 0)
      (bindings operand' rounds d 0) := bindings_tallies (ho.anywhere (Nat.zero_le 2)) d 0
  exact .enter ((ho.anywhere (Nat.le_refl 2)).bind fun d =>
    ((hchain d).enter (by decide)).bind fun chain =>
      invocation_tallies hi.inside chain (by decide)) (by decide)

theorem level_tallies (depth : Nat) :
    (Tallied.level rounds depth).Tallies (level rounds depth) := by
  induction depth with
  | zero =>
    have hdeep {P : List Token → Prop} {i j : Nat} (hi : i + 1 ≤ entryLimit) :
        Tallies P i j (Tallied.enter (fail .nestingTooDeep) : Parser Tallied Node)
          (fail .nestingTooDeep) := .enter (.fail _) hi
    exact ⟨hdeep (by decide), hdeep (by decide), hdeep (by decide)⟩
  | succ depth ih =>
    have hoperand : Tallies Anywhere 2 2 (Tallied.operand rounds (Tallied.level rounds depth))
        (operand rounds (level rounds depth)) :=
      operand_tallies ih (.inl (Nat.le_refl 1)) (by decide)
    exact ⟨hoperand, operand_tallies ih (.inr fun _ => id) (by decide),
      expression_tallies ih hoperand⟩

theorem statements_tallies {statement : Parser Tallied Node} {statement' : Parser Lexer Node}
    (hs : Tallies Anywhere 1 4 statement statement') (hi : i ≤ 1 ∨ ∀ ts, P ts → ts = [])
    (hi' : i ≤ 4) :
    Tallies P i 4 (statements statement rounds) (statements statement' rounds) := by
  induction rounds generalizing P i with
  | zero => exact .exhausted
  | succ rounds ih =>
    rw [statements_succ, statements_succ]
    refine .look fun t => ?_
    cases t with
    | none => exact .pure [] hi'
    | some t =>
      rcases hi with hi | hi
      · refine (hs.anywhere hi).bind fun node => .look fun u => ?_
        cases u with
        | none =>
          have hend : ∀ ts : List Token, Anywhere ts ∧ ts.head? = none → ts = [] :=
            fun ts hts => List.head?_eq_none_iff.1 hts.2
          exact (ih (.inr hend) (Nat.le_refl 4)).bind fun nodes => .pure _ (Nat.le_refl 4)
        | some u =>
          refine .bind (.expect _ _) fun _ => ?_
          exact (ih (.inl (Nat.zero_le 1)) (Nat.zero_le 4)).bind fun nodes =>
            .pure _ (Nat.le_refl 4)
      · intro s hts
        rw [hi _ hts.1] at hts
        cases hts.2

theorem itemReader_tallies (hi : inner.Tallies inner') (reader : ItemReader) :
    Tallies Anywhere 0 4 (Call.itemReader inner reader) (Call.itemReader inner' reader) := by
  cases reader with
  | expression => exact hi.inside
  | operand => exact hi.operand.imp (fun _ => id) (by decide) (by decide)
  | identifier =>
    rw [Call.itemReader, Call.itemReader, map_eq_pure_bind, map_eq_pure_bind]
    exact .bind (.expect _ _) fun t => .pure _ (by decide)

end Productions

end Parser

theorem Call.tallied_tallies (rounds : Nat) (c : Call) :
    Tallies Anywhere 0 entryLimit (c.tallied rounds) (c.reader rounds) := by
  have hi : (Tallied.level rounds nestingLimit).Tallies (level rounds nestingLimit) :=
    level_tallies nestingLimit
  have mapped {α β : Type} {i j : Nat} {g : Parser Tallied α} {p : Parser Lexer α}
      (f : α → β) (h : Tallies Anywhere i j g p) (hj : j ≤ entryLimit) :
      Tallies Anywhere 0 entryLimit (f <$> g) (f <$> p) := by
    rw [map_eq_pure_bind, map_eq_pure_bind]
    exact (h.anywhere (Nat.zero_le i)).bind fun a => .pure _ hj
  cases c with
  | program =>
    have hstatements : Tallies Anywhere 1 4
        (statements (Tallied.level rounds nestingLimit).expression rounds)
        (statements (level rounds nestingLimit).expression rounds) :=
      statements_tallies hi.expression (.inl (Nat.le_refl 1)) (by decide)
    exact mapped _ (hstatements.enter (by decide)) (by decide)
  | expression => exact mapped _ hi.expression (by decide)
  | operand => exact mapped _ hi.operand (by decide)
  | group => exact mapped _ (group_tallies (i := 0) hi (by decide)) (by decide)
  | block => exact mapped _ (block_tallies (i := 0) hi (by decide)) (by decide)
  | declaration => exact mapped _ (declaration_tallies (i := 0) hi (by decide)) (by decide)
  | signed => exact mapped _ (signed_tallies (i := 0) hi (by decide)) (by decide)
  | invocation callee =>
    exact mapped _ (invocation_tallies (i := 0) hi.inside callee (by decide)) (by decide)
  | bindings left least =>
    have hchain : Tallies Anywhere 3 3
        (Tallied.bindings (Tallied.level rounds nestingLimit).operand rounds left least)
        (Parser.bindings (level rounds nestingLimit).operand rounds left least) :=
      bindings_tallies (hi.operand.anywhere (Nat.zero_le 2)) left least
    exact mapped _ (hchain.enter (by decide)) (by decide)
  | delimited start stop separator reader =>
    exact mapped _ (delimited_tallies (i := 0) start stop separator (itemReader_tallies hi reader)
      (by decide)) (by decide)
  | peekToken =>
    change Tallies _ _ _ (Answer.token <$> Parser.peek) (Answer.token <$> Parser.peek)
    rw [map_eq_pure_bind, map_eq_pure_bind]
    exact .look fun t => .pure _ (by decide)
  | nextToken => exact mapped (i := 0) (j := 0) _ (.next (Nat.le_refl 0)) (by decide)
  | noTokens => exact .look fun t => .pure _ (by decide)
  | expectPunctuation | expectIdentifier | expectOperator =>
    exact mapped (i := 0) _ (.expect _ _) (by decide)
  | unexpected => exact .unexpected

/-- Reading comes to an end. A token takes characters, so that a text has at most as many tokens as
characters; a construct takes tokens, and so does each round of a loop that goes on; at most five
readers are entered before a token is delivered, whatever is asked of a lexer; so no rounds are
ever used up. -/
theorem reading_ends :
    (∀ c t c', Lexer.readToken c = .ok (some t) c' →
      ∃ n, 0 < n ∧ n ≤ c.rest.length ∧ c' = c.advance n) ∧
    (∀ source ts, tokenize source = .ok ts → ts.length ≤ source.length) ∧
    (∀ rounds depth, ∀ p ∈ constructs rounds depth, ∀ l n l', p l = .ok n l' →
      Lexer.Takes 1 l l') ∧
    (∀ rounds depth left,
      let inner : Level Lexer := level rounds depth
      (∀ stop separator reader first,
        let item := Call.itemReader inner reader
        ByRounds (items stop separator item (left + 1) first)
          (itemRound stop separator item first) (return [])
          (fun x => do return x :: (← items stop separator item left false))) ∧
      (∀ node least, ByRounds (bindings inner.operand (left + 1) node least)
        (bindingRound inner.operand left node least) (return node)
        (fun joined => bindings inner.operand left joined least)) ∧
      ByRounds (statements inner.expression (left + 1)) (statementRound inner.expression)
        (return []) (fun node => do return node :: (← statements inner.expression left))) ∧
    (∀ rounds (c : Call) (l : Lexer), ∃ entered most, most ≤ 5 ∧
      c.tallied rounds ⟨l, 0, 0⟩ = Tallied.beside entered most (c.reader rounds l)) ∧
    ∀ source, tokenize source ≠ .error .exhausted ∧ parse source ≠ .error .exhausted := by
  refine ⟨fun _ _ _ => Lexer.readToken_takes, fun _ _ => length_tokenize,
    fun _ _ _ hp _ _ _ => constructs_take hp, fun rounds depth left => ?_, fun rounds c l => ?_,
    fun source => ⟨tokenize_not_exhausted source, parse_not_exhausted source⟩⟩
  · exact ⟨fun stop separator reader first => items_by_rounds stop separator reader left first,
      bindings_by_rounds left, statements_by_rounds left⟩
  · obtain ⟨n, m, hm, -, h⟩ := c.tallied_tallies rounds ⟨l, 0, 0⟩ trivial (Nat.le_refl 0)
      (Nat.zero_le entryLimit)
    exact ⟨n, m, hm, h⟩

end RuleLang
