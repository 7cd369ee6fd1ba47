import RuleLang.Proofs.Slots

/-!
A plus sign before an operand. The sign takes the operand with the argument list right behind it,
and an operand that a sign begins may take one more. Without the sign that list is for the whole
expression. So the plus changes nothing unless there is such a list, and nothing either where the
operand and the list are the whole expression.
-/
namespace RuleLang

open RuleLang.Vocabulary RuleLang.Parser

/-- Whether another argument list stands behind the operand that begins here, which may have taken
one. -/
def CalledTwice (us : List Token) : Prop :=
  ∃ d mid, Reads (.operand d) us mid ∧ isMark openParen mid.head? = true

/-- Whether an argument list behind the operand that begins here ends an expression. -/
def CallEnds (us : List Token) : Prop :=
  ∀ d n mid rest, Reads (.operand d) us mid → Reads (.invocation d n) mid rest → Closes rest

theorem opens_takesSign {t : Token} {ts : List Token} (h : takesSign t.lexeme) :
    Opens (t :: ts) := by
  refine ⟨t, ts, rfl, ?_⟩
  cases hx : t.lexeme with
  | number | identifier => rw [opening_leaf rfl]; decide
  | punctuation text =>
    have htext : text = openParen := by simpa [takesSign, hx] using h
    rw [opening_group (by rw [htext])]
    decide
  | string | keyword | operator => simp [takesSign, hx] at h

theorem no_operator_of_open {ts : List Token} (h : isMark openParen ts.head? = true) :
    operatorText? ts.head? = none := by
  cases ts with
  | nil => rfl
  | cons t ts => exact operatorText?_punctuation (isMark_some.1 h)

theorem Parser.Bindings.eq_of_no_operator {operand : Node → List Token → List Token → Prop}
    {left n : Node} {least : Int} {ts rest : List Token}
    (h : Bindings operand left least n ts rest) (ht : operatorText? ts.head? = none) :
    left = n ∧ ts = rest := by
  cases h with
  | bound => exact ⟨rfl, rfl⟩
  | pair hop =>
    rw [List.head?_cons, operatorText?_operator hop] at ht
    cases ht

theorem Parser.Readings.Invocation.eq_of_not_open {inner : Readings} {callee n : Node}
    {ts rest : List Token} (h : inner.Invocation callee n ts rest)
    (ht : isMark openParen ts.head? = false) : callee = n ∧ ts = rest := by
  cases h with
  | uncalled => exact ⟨rfl, rfl⟩
  | call ho =>
    rw [List.head?_cons, isMark_some.2 ho] at ht
    cases ht

section Plus

variable {plus : Token} (hplus : plus.lexeme = .operator "+")
include hplus

theorem sign_plus : isOperatorAmong signOperators plus.lexeme := by
  rw [hplus]
  rfl

theorem applySign_plus (n : Node) : applySign plus n = n := by
  rw [applySign, if_neg]
  rw [hplus]
  decide

variable {depth : Nat} {power : Int} {d n : Node} {us mid : List Token}

theorem operand_plus (h : (readings depth).operand d us mid) {rest : List Token}
    (hn : (readings depth).Invocation d n mid rest)
    (hus : us.head?.any (takesSign ·.lexeme)) :
    (readings (depth + 1)).operand n (plus :: us) rest := by
  have ha : (readings depth).Atom (applySign plus d) (plus :: us) mid :=
    .sign (sign_plus hplus) hus h
  rw [applySign_plus hplus] at ha
  exact ⟨d, mid, ha, hn⟩

theorem operand_unsigned (h : (readings (depth + 1)).operand n (plus :: us) mid) :
    ∃ d m, (readings depth).operand d us m ∧ (readings depth).Invocation d n m mid := by
  obtain ⟨a, m, ha, hn⟩ := h
  cases ha with
  | sign _ _ hd =>
    rw [applySign_plus hplus] at hn
    exact ⟨_, m, hd, hn⟩
  | group ho | block ho | rule ho | truth ho =>
    rw [hplus] at ho
    cases ho
  | leaf ht =>
    rw [hplus] at ht
    cases ht

theorem chain_plus (h : Chain (readings depth).operand power n us mid)
    (hus : us.head?.any (takesSign ·.lexeme)) (hcall : ¬ CalledTwice us) :
    Chain (readings (depth + 1)).operand power n (plus :: us) mid := by
  obtain ⟨d, m, hd, hn⟩ := h
  have hm : isMark openParen m.head? = false :=
    Bool.eq_false_iff.2 fun hm => hcall ⟨d, m, (readings_le_all depth).operand hd, hm⟩
  exact ⟨d, m, operand_plus hplus hd (.uncalled hm) hus,
    hn.mono (readings_le_succ depth).operand⟩

theorem expression_plus (h : (readings depth).expression n us mid) (hclose : Closes mid)
    (hus : us.head?.any (takesSign ·.lexeme)) :
    (readings (depth + 1)).expression n (plus :: us) mid := by
  cases depth with
  | zero => exact h.elim
  | succ depth =>
    obtain ⟨chain, m₂, ⟨d, m₁, hd, hc⟩, hn⟩ := h
    have hd' : (readings (depth + 1)).operand d us m₁ := hd
    have hn' := hn.mono (readings_le_succ depth)
    cases hm : isMark openParen m₁.head? with
    | false =>
      have hplain := operand_plus hplus hd' (.uncalled hm) hus
      exact ⟨chain, m₂, ⟨d, m₁, hplain, hc.mono (readings_le_succ (depth + 1)).operand⟩, hn'⟩
    | true =>
      -- the list behind the operand is that of the expression
      obtain ⟨rfl, rfl⟩ := hc.eq_of_no_operator (no_operator_of_open hm)
      have hcalled := operand_plus hplus hd' hn' hus
      exact ⟨n, mid, ⟨n, mid, hcalled, .bound (stops_of_none hclose.no_operator)⟩,
        .uncalled hclose.not_open⟩

theorem chain_unsigned (h : Chain (readings depth).operand power n (plus :: us) mid)
    (hcall : ¬ CalledTwice us) : Chain (readings depth).operand power n us mid := by
  cases depth with
  | zero =>
    obtain ⟨d, m, hd, -⟩ := h
    exact hd.elim
  | succ depth =>
    obtain ⟨a, m, ha, hn⟩ := h
    obtain ⟨d, m', hd, hinv⟩ := operand_unsigned hplus ha
    have hm : isMark openParen m'.head? = false :=
      Bool.eq_false_iff.2 fun hm => hcall ⟨d, m', (readings_le_all depth).operand hd, hm⟩
    obtain ⟨rfl, rfl⟩ := hinv.eq_of_not_open hm
    exact ⟨d, m', (readings_le_succ depth).operand hd, hn⟩

theorem expression_unsigned (h : (readings depth).expression n (plus :: us) mid)
    (hcall : CalledTwice us → CallEnds us) : (readings depth).expression n us mid := by
  cases depth with
  | zero => exact h.elim
  | succ depth =>
    obtain ⟨chain, m₂, ⟨a, m₁, ha, hc⟩, hn⟩ := h
    obtain ⟨d, m, hd, hinv⟩ := operand_unsigned hplus ha
    have hd' := (readings_le_succ depth).operand hd
    have hreads : Reads (.operand d) us m := (readings_le_all depth).operand hd
    cases hm : isMark openParen m.head? with
    | false =>
      obtain ⟨rfl, rfl⟩ := hinv.eq_of_not_open hm
      exact ⟨chain, m₂, ⟨d, m, hd', hc⟩, hn⟩
    | true =>
      -- the operand has taken the list that ends the expression
      have hclose := hcall ⟨d, m, hreads, hm⟩ d a m m₁ hreads
        (hinv.mono (readings_le_all depth)).reads
      obtain ⟨rfl, rfl⟩ := hc.eq_of_no_operator hclose.no_operator
      obtain ⟨rfl, rfl⟩ := hn.eq_of_not_open hclose.not_open
      exact ⟨d, m, ⟨d, m, hd', .bound (stops_of_none (no_operator_of_open hm))⟩, hinv⟩

end Plus

/-- Unary plus is transparent. Where an operand begins with a number, an identifier or a group and
no sign stands before it, a plus before it changes neither what is read nor whether it is, up to
one more level of nesting, unless a further argument list stands behind the operand and the one
that it may have. With such a list a plus may be put in if no infix operator stands before the
operand, and taken out if besides that list ends the expression. -/
theorem unary_plus_transparent {limit : Nat} {pre post : List Token} {t plus : Token}
    {stop : Position} (hpre : OperandPlace pre) (ht : takesSign t.lexeme)
    (hplus : plus.lexeme = .operator "+") :
    (∀ ns s, Parser.program limit (Scan.ofTokens (pre ++ t :: post) stop) = .ok ns s →
      (AfterOperator pre → ¬ CalledTwice (t :: post)) →
      Parser.program (limit + 1) (Scan.ofTokens (pre ++ plus :: t :: post) stop) =
          .ok ns (Scan.ofTokens [] stop) ∧
        ReadAs limit stop (pre ++ plus :: t :: post) ns) ∧
    ∀ ns s, Parser.program limit (Scan.ofTokens (pre ++ plus :: t :: post) stop) = .ok ns s →
      (CalledTwice (t :: post) → ¬ AfterOperator pre ∧ CallEnds (t :: post)) →
      Parser.program limit (Scan.ofTokens (pre ++ t :: post) stop) =
        .ok ns (Scan.ofTokens [] stop) := by
  refine ⟨fun ns s h hcall => ?_, fun ns s h hcall => ?_⟩
  -- both ways the program is read as before but for the slot of the operand
  · have hhole : Hole [] pre (t :: post) [] := ⟨hpre, opens_takesSign ht, Nat.succ_pos _⟩
    have hread : Statements (readings (1 + limit)).expression ns (pre ++ plus :: t :: post) := by
      cases statements_slot (program_ok_iff.1 h).1 hhole nofun with
      | @expression depth n mid hn hclose hall =>
        refine hall 1 _ ?_
        rw [Nat.add_comm]
        exact expression_plus hplus hn hclose ht
      | @chain depth power n mid hop hn hall =>
        refine hall 1 _ ?_
        rw [Nat.add_comm]
        exact chain_plus hplus hn ht (hcall hop)
    refine ⟨?_, Reads.readAs (hread.mono (readings_le_all _).expression).reads limit stop⟩
    rw [Nat.add_comm]
    exact program_ok_iff.2 ⟨hread, rfl⟩
  · have hopens : Opens (plus :: t :: post) :=
      ⟨plus, _, rfl, by rw [opening_sign (sign_plus hplus)]; exact nofun⟩
    have hhole : Hole [] pre (plus :: t :: post) [] := ⟨hpre, hopens, Nat.succ_pos _⟩
    have hread : Statements (readings (0 + limit)).expression ns (pre ++ t :: post) := by
      cases statements_slot (program_ok_iff.1 h).1 hhole nofun with
      | @expression depth n mid hn hclose hall =>
        refine hall 0 _ ?_
        rw [Nat.zero_add]
        exact expression_unsigned hplus hn fun h => (hcall h).2
      | @chain depth power n mid hop hn hall =>
        refine hall 0 _ ?_
        rw [Nat.zero_add]
        exact chain_unsigned hplus hn fun h => (hcall h).1 hop
    rw [Nat.zero_add] at hread
    exact program_ok_iff.2 ⟨hread, rfl⟩

theorem unary_plus_transparent_factor :
    let token (x : Lexeme) (column : Int) : Token := ⟨x, ⟨1, column⟩⟩
    let a := token (.identifier "a") 0
    let f := token (.identifier "f") 5
    let b := token (.identifier "b") 7
    let pre := [a, token (.operator "*") 2]
    let plus := token (.operator "+") 4
    let post := [token (.punctuation "(") 6, b, token (.punctuation ")") 8]
    let product := Node.binary "*" (.leaf a) (.call (.leaf f) [.leaf b])
    Parser.program 9 (Scan.ofTokens (pre ++ plus :: f :: post) .start) =
        .ok [product] (Scan.ofTokens [] .start) ∧
      Parser.program 9 (Scan.ofTokens (pre ++ f :: post) .start) =
        .ok [product] (Scan.ofTokens [] .start) := by
  intro token a f b pre plus post product
  have hplace : OperandPlace pre := by
    have hawaits : AwaitsOperand ([a] ++ [token (.operator "*") 2]) := .snoc rfl
    refine ⟨hawaits, ?_, ?_⟩
    · rintro ⟨earlier, s, hs, hsign, -⟩
      have hlast : [a] ++ [token (.operator "*") 2] = earlier ++ [s] := hs
      obtain ⟨-, hlast⟩ := List.append_inj' hlast rfl
      obtain rfl := List.singleton_inj.1 hlast
      cases hsign
    · rintro ⟨front, r, title, o, params, hpre, hr, -⟩
      have hmem : r ∈ pre := hpre ▸ by simp
      simp [pre, a, token] at hmem
      rcases hmem with rfl | rfl <;> cases hr
  have hcall : ¬ CalledTwice (f :: post) := by
    rintro ⟨d, mid, hread, hm⟩
    have hret : (Phrase.operand d).Returned 9 9 (f :: post) mid := hread.returned (by decide)
    rcases hret .start with hok | ⟨_, _, _, _, hle⟩
    · have hscan := (EStateM.Result.ok.inj hok).2
      obtain rfl : [] = mid := congrArg Scan.tokens hscan
      cases hm
    · exact absurd hle (by decide)
  obtain ⟨hin, hout⟩ := @unary_plus_transparent 9 pre post f plus .start hplace rfl rfl
  have hread : ReadAs 9 .start (pre ++ plus :: f :: post) [product] :=
    (hin [product] (Scan.ofTokens [] .start) rfl fun _ => hcall).2
  have hok := hread.resolve_right fun ⟨_, _, _, _, hle⟩ => absurd hle (by decide)
  exact ⟨hok, hout _ _ hok fun h => absurd h hcall⟩

/-- In `a + f(b)(c)` the second list is for the sum, and behind a plus before `f` for the call. And
`+f(b)(c)(d)` is read, while without the plus the third list is left over. A plus also takes a level
of nesting: where `f` just fits, `+f` nests too deeply. -/
theorem unary_plus_moves_call :
    let token (x : Lexeme) (column : Int) : Token := ⟨x, ⟨1, column⟩⟩
    let name (text : String) (column : Int) : Token := token (.identifier text) column
    let list (text : String) (column : Int) : List Token :=
      [token (.punctuation "(") (column - 1), name text column,
        token (.punctuation ")") (column + 1)]
    let leaf (text : String) (column : Int) : Node := .leaf (name text column)
    let sum := [name "a" 0, token (.operator "+") 2]
    let plus := token (.operator "+") 4
    let calls := name "f" 6 :: (list "b" 8 ++ list "c" 11)
    let third := list "d" 14
    let call := Node.call (leaf "f" 6) [leaf "b" 8]
    let sumCalled := Node.call (.binary "+" (leaf "a" 0) call) [leaf "c" 11]
    let callCalled := Node.binary "+" (leaf "a" 0) (.call call [leaf "c" 11])
    (Parser.program 9 (Scan.ofTokens (sum ++ calls) .start) =
          .ok [sumCalled] (Scan.ofTokens [] .start) ∧
        Parser.program 9 (Scan.ofTokens (sum ++ plus :: calls) .start) =
          .ok [callCalled] (Scan.ofTokens [] .start) ∧ sumCalled ≠ callCalled) ∧
      ((∃ ns s, Parser.program 9 (Scan.ofTokens (plus :: (calls ++ third)) .start) = .ok ns s) ∧
        ∃ e s, Parser.program 9 (Scan.ofTokens (calls ++ third) .start) = .error e s) ∧
      Parser.program 1 (Scan.ofTokens [name "f" 6] .start) =
        .ok [leaf "f" 6] (Scan.ofTokens [] .start) ∧
      ∃ e s, Parser.program 1 (Scan.ofTokens [plus, name "f" 6] .start) = .error e s ∧
        e.IsTooDeep :=
  ⟨⟨rfl, rfl, nofun⟩, ⟨⟨_, _, rfl⟩, _, _, rfl⟩, rfl, _, _, rfl, rfl⟩

end RuleLang
