import RuleLang.Proofs.Reading

/-!
What is read is returned. If the relation reads a phrase, its reader returns the same answer and
the same rest, provided that it has more rounds than there are tokens; the one exception are
constructs that nest too deeply, which takes as many tokens as levels.
-/
namespace RuleLang.Parser

open Vocabulary

variable {α β : Type}

/-- On a finished list the reader returns the answer and leaves the rest, unless constructs nest
more than `depth` deep. -/
def Returns (depth : Nat) (p : Parser Scan α) (ts : List Token) (a : α) (rest : List Token) :
    Prop :=
  ∀ stop, p ⟨ts, stop, none⟩ = .ok a ⟨rest, stop, none⟩ ∨
    ∃ e s, p ⟨ts, stop, none⟩ = .error e s ∧ e.IsTooDeep ∧ depth ≤ ts.length

namespace Returns

variable {depth inner : Nat} {ts mid rest : List Token} {a : α} {b : β} {p : Parser Scan α}

theorem pure (a : α) (ts : List Token) : Returns depth (pure a) ts a ts :=
  fun _ => .inl rfl

theorem bind {f : α → Parser Scan β} (hp : Returns depth p ts a mid)
    (hf : Returns inner (f a) mid b rest) (hd : inner ≤ mid.length → depth ≤ ts.length) :
    Returns depth (p >>= f) ts b rest := by
  intro stop
  rcases hp stop with hok | ⟨e, s, he, htd, hle⟩
  · rw [bind_of_ok hok]
    rcases hf stop with hok' | ⟨e, s, he, htd, hle⟩
    · exact .inl hok'
    · exact .inr ⟨e, s, he, htd, hd hle⟩
  · exact .inr ⟨e, s, bind_of_error he f, htd, hle⟩

theorem after {f : α → Parser Scan β} (hp : Returns depth p ts a mid)
    (hf : Returns depth (f a) mid b rest) (hle : mid.length ≤ ts.length) :
    Returns depth (p >>= f) ts b rest :=
  hp.bind hf fun hd => Nat.le_trans hd hle

theorem andPure (hp : Returns depth p ts a rest) (g : α → β) :
    Returns depth (p >>= fun a => Pure.pure (g a)) ts (g a) rest := by
  intro stop
  rcases hp stop with hok | ⟨e, s, he, htd, hle⟩
  · exact .inl (bind_of_ok hok _)
  · exact .inr ⟨e, s, bind_of_error he _, htd, hle⟩

theorem look {f : Option Token → Parser Scan α} (h : Returns depth (f ts.head?) ts a rest) :
    Returns depth (peek >>= f) ts a rest := by
  intro stop
  cases ts with
  | nil => exact h stop
  | cons t ts => exact h stop

theorem next {t : Token} {f : Option Token → Parser Scan α}
    (h : Returns inner (f (some t)) ts a rest) (hd : depth ≤ inner + 1) :
    Returns depth (next >>= f) (t :: ts) a rest := by
  intro stop
  rcases h stop with hok | ⟨e, s, he, htd, hle⟩
  · exact .inl hok
  · refine .inr ⟨e, s, he, htd, ?_⟩
    rw [List.length_cons]
    omega

theorem expect {t : Token} {wanted : Lexeme → Bool} {cause : Cause} {f : Token → Parser Scan α}
    (ht : wanted t.lexeme) (h : Returns inner (f t) ts a rest) (hd : depth ≤ inner + 1) :
    Returns depth (expect wanted cause >>= f) (t :: ts) a rest := by
  intro stop
  have hok : Parser.expect wanted cause (⟨t :: ts, stop, none⟩ : Scan) =
      .ok t ⟨ts, stop, none⟩ := by
    rw [expect_cons, if_pos ht]
  rw [bind_of_ok hok]
  rcases h stop with hok | ⟨e, s, he, htd, hle⟩
  · exact .inl hok
  · refine .inr ⟨e, s, he, htd, ?_⟩
    rw [List.length_cons]
    omega

theorem mark {t : Token} {text : String} {f : Token → Parser Scan α}
    (ht : t.lexeme = .punctuation text) (h : Returns inner (f t) ts a rest)
    (hd : depth ≤ inner + 1) : Returns depth (expectPunctuation text >>= f) (t :: ts) a rest :=
  .expect (decide_eq_true ht) h hd

end Returns

section Lists

variable {item : α → List Token → List Token → Prop} {reader : Parser Scan α}
  {stop separator : String} {depth rounds : Nat} {first : Bool} {xs : List α}
  {ts rest : List Token}

theorem itemsFrom_returns {x : α} {mid : List Token} (hm : isMark stop ts.head? = false)
    (hx : Returns depth reader ts x mid) (hle : mid.length ≤ ts.length)
    (hxs : Returns depth (items stop separator reader rounds false) mid xs rest) :
    Returns depth (itemsFrom stop separator reader rounds) ts (x :: xs) rest := by
  refine .look ?_
  simp only [hm, Bool.false_eq_true, if_false]
  exact hx.after (hxs.andPure _) hle

theorem items_returns (h : Listed item stop separator first xs ts rest)
    (hr : ts.length < rounds) (hl : ∀ x us mid, item x us mid → mid.length < us.length)
    (hi : ∀ x us mid, item x us mid → us.length ≤ ts.length → Returns depth reader us x mid) :
    Returns depth (items stop separator reader rounds first) ts xs rest := by
  induction rounds generalizing first xs ts with
  | zero => omega
  | succ rounds ih =>
    cases h with
    | @stop first ts hends =>
      have hs := ends_iff.2 hends
      cases first with
      | true =>
        rw [items_first]
        refine .look ?_
        simp only [hs, if_true]
        exact .pure _ _
      | false =>
        rw [items_later]
        refine .look ?_
        simp only [hs, if_true]
        exact .pure _ _
    | @trailing s c rest hstop hsep hc =>
      rw [items_later]
      refine .look ?_
      simp only [List.head?_cons, Option.isNone_some, not_isMark hstop, Bool.or_false,
        Bool.false_eq_true, if_false]
      refine .mark hsep (.look ?_) (Nat.le_succ _)
      simp only [List.head?_cons, isMark_some.2 hc, if_true]
      exact .pure _ _
    | @first x xs ts mid rest hm hx hxs =>
      have hlt := hl x ts mid hx
      have hret := hi x ts mid hx (Nat.le_refl _)
      have hrest := ih hxs (by omega) fun y us mid' hy hle => hi y us mid' hy (by omega)
      rw [items_first]
      refine .look ?_
      have hsome : ts.head?.isNone = false := by
        cases ts with
        | nil => cases hlt
        | cons t ts => rfl
      simp only [hm, hsome, Bool.or_false, Bool.false_eq_true, if_false]
      exact itemsFrom_returns hm hret (Nat.le_of_lt hlt) hrest
    | @next s x xs ts mid rest hstop hsep hm hx hxs =>
      rw [List.length_cons] at hr hi
      have hlt := hl x ts mid hx
      have hret := hi x ts mid hx (Nat.le_succ _)
      have hrest := ih hxs (by omega) fun y us mid' hy hle => hi y us mid' hy (by omega)
      rw [items_later]
      refine .look ?_
      simp only [List.head?_cons, Option.isNone_some, not_isMark hstop, Bool.or_false,
        Bool.false_eq_true, if_false]
      exact .mark hsep (itemsFrom_returns hm hret (Nat.le_of_lt hlt) hrest) (Nat.le_succ _)

end Lists

theorem delimited_returns {item : α → List Token → List Token → Prop} {reader : Parser Scan α}
    {start stop separator : String} {depth rounds : Nat} {o c : Token} {xs : List α}
    {ts rest : List Token} (ho : o.lexeme = .punctuation start)
    (hc : c.lexeme = .punctuation stop)
    (h : Listed item stop separator true xs ts (c :: rest)) (hr : ts.length < rounds)
    (hl : ∀ x us mid, item x us mid → mid.length < us.length)
    (hi : ∀ x us mid, item x us mid → us.length ≤ ts.length → Returns depth reader us x mid) :
    Returns (depth + 1) (delimited rounds start stop separator reader) (o :: ts) xs rest := by
  have hle := h.length_le fun x us mid hx => Nat.le_of_lt (hl x us mid hx)
  have hstop : Returns depth (expectPunctuation stop >>= fun _ => pure xs) (c :: rest) xs rest :=
    .mark hc (.pure _ _) (Nat.le_succ _)
  exact .mark ho ((items_returns h hr hl hi).after hstop hle) (Nat.le_refl _)

theorem identifier_returns {t : Token} {ts rest : List Token} (h : Identifier t ts rest)
    (depth : Nat) : Returns depth expectIdentifier ts t rest := by
  obtain ⟨rfl, hk⟩ := h
  intro stop
  refine .inl ?_
  rw [expectIdentifier, expect_cons, if_pos (decide_eq_true hk)]

theorem identifier_length {t : Token} {ts rest : List Token} (h : Identifier t ts rest) :
    rest.length < ts.length := by
  rw [h.1]
  exact Nat.lt_succ_self _

def Phrase.Returned (rounds depth : Nat) : Phrase → List Token → List Token → Prop
  | .program ns, ts, rest => ∀ left, ts.length < left →
    Returns depth (statements (level rounds depth).expression left) ts ns rest
  | .expression n, ts, rest => Returns depth (level rounds depth).expression ts n rest
  | .operand n, ts, rest => Returns depth (level rounds depth).operand ts n rest
  | .atom n, ts, rest => Returns (depth + 1) (Parser.atom rounds (level rounds depth)) ts n rest
  | .bindings left least n, ts, rest => ∀ more, ts.length < more →
    Returns depth (Parser.bindings (level rounds depth).operand more left least) ts n rest
  | .invocation callee n, ts, rest =>
    Returns (depth + 1) (Parser.invocation rounds (level rounds depth).expression callee) ts n rest

section Phrases

variable {rounds depth : Nat}

theorem expression_length {n : Node} {ts rest : List Token} (h : Reads (.expression n) ts rest) :
    rest.length < ts.length := h.length_le

theorem block_returns {inner : Level Scan} {item : Node → List Token → List Token → Prop}
    {o c : Token} {nodes : List Node} {ts rest : List Token}
    (ho : o.lexeme = .punctuation openBrace) (hc : c.lexeme = .punctuation closeBrace)
    (h : Listed item closeBrace semicolon true nodes ts (c :: rest)) (hr : ts.length < rounds)
    (hl : ∀ x us mid, item x us mid → mid.length < us.length)
    (hi : ∀ x us mid, item x us mid → us.length ≤ ts.length →
      Returns depth inner.expression us x mid) :
    Returns (depth + 1) (block rounds inner) (o :: ts) (Node.sequence nodes) rest :=
  (delimited_returns ho hc h hr hl hi).andPure Node.sequence

theorem name?_returns {name : Option String} {o : Token} {ts rest : List Token}
    (h : Named name ts (o :: rest)) (ho : o.lexeme = .punctuation openParen) (depth : Nat) :
    Returns depth name? ts name (o :: rest) := by
  rw [name?_eq]
  refine .look ?_
  cases h with
  | anonymous =>
    have hk : (some o).any (·.kind = .identifier) = false := by
      simp [Token.kind, ho, Lexeme.kind]
    simp only [List.head?_cons, hk, Bool.false_eq_true, if_false]
    exact .pure _ _
  | @name t _ hk =>
    have hk' : (some t).any (·.kind = .identifier) = true := by
      rw [Option.any_some, Token.kind, hk]
      rfl
    simp only [List.head?_cons, hk', if_true]
    exact (identifier_returns ⟨rfl, hk⟩ depth).andPure (·.lexeme.text?)

theorem parameters_returns {o c : Token} {params ts rest : List Token}
    (ho : o.lexeme = .punctuation openParen) (hc : c.lexeme = .punctuation closeParen)
    (h : Listed Identifier closeParen comma true params ts (c :: rest))
    (hf : firstRepeated? [] params = none) (hr : ts.length < rounds) (depth : Nat) :
    Returns (depth + 1) (parameters rounds) (o :: ts) (params.filterMap (·.lexeme.text?)) rest := by
  rw [parameters_eq]
  refine .look ?_
  simp only [List.head?_cons, isMark_some.2 ho, if_true]
  have hlist := delimited_returns ho hc h hr (fun _ _ _ => identifier_length)
    fun _ _ _ ht _ => identifier_returns ht depth
  have hdeclared : Returns (depth + 1) (declared params) rest
      (params.filterMap (·.lexeme.text?)) rest := by
    rw [declared, hf]
    exact .pure _ _
  have hle := h.length_le fun _ _ _ ht => Nat.le_of_lt (identifier_length ht)
  refine hlist.after hdeclared ?_
  simp only [List.length_cons] at hle ⊢
  omega

theorem isNone_head {ts rest : List Token} (h : rest.length < ts.length) :
    ts.head?.isNone = false := by
  cases ts with
  | nil => cases h
  | cons t ts => rfl

theorem statements_nil_returns {statement : Parser Scan Node} {left : Nat} (h : 0 < left) :
    Returns depth (statements statement left) [] [] [] := by
  obtain ⟨left, rfl⟩ : ∃ n, left = n + 1 := ⟨left - 1, by omega⟩
  rw [statements_succ]
  exact .look (.pure _ _)

theorem statements_last_returns {statement : Parser Scan Node} {n : Node} {ts : List Token}
    {left : Nat} (hn : Returns depth statement ts n []) (hlt : ([] : List Token).length < ts.length)
    (hleft : 1 < left) : Returns depth (statements statement left) ts [n] [] := by
  obtain ⟨left, rfl⟩ : ∃ n, left = n + 1 := ⟨left - 1, by omega⟩
  rw [statements_succ]
  refine .look ?_
  simp only [isNone_head hlt, Bool.false_eq_true, if_false]
  refine hn.after (.look ?_) (Nat.zero_le _)
  exact (statements_nil_returns (by omega)).andPure _

theorem statements_more_returns {statement : Parser Scan Node} {n : Node} {ns : List Node}
    {s : Token} {ts rest : List Token} {left : Nat} (hs : s.lexeme = .punctuation semicolon)
    (hn : Returns depth statement ts n (s :: rest)) (hlt : (s :: rest).length < ts.length)
    (hns : Returns depth (statements statement left) rest ns []) :
    Returns depth (statements statement (left + 1)) ts (n :: ns) [] := by
  rw [statements_succ]
  refine .look ?_
  simp only [isNone_head hlt, Bool.false_eq_true, if_false]
  refine hn.after (.look ?_) (Nat.le_of_lt hlt)
  exact .mark hs (hns.andPure _) (Nat.le_succ _)

theorem bindings_bound_returns {operand : Parser Scan Node} {least : Int} {ts : List Token}
    (hs : Stops least ts) (left : Node) (more : Nat) :
    Returns depth (bindings operand (more + 1) left least) ts left ts := by
  rw [bindings_succ]
  refine .look ?_
  cases hop : operatorText? ts.head? with
  | none => exact .pure _ _
  | some op =>
    obtain ⟨power, hp, hle⟩ := hs op hop
    simp only [hp, hle, if_true]
    exact .pure _ _

theorem bindings_pair_returns {operand : Parser Scan Node} {left d right n : Node} {t : Token}
    {op : String} {power least : Int} {ts m₁ m₂ rest : List Token} {more : Nat}
    (ht : t.lexeme = .operator op) (hp : bindingPower? op = some power) (hlt : least < power)
    (hd : Returns depth operand ts d m₁) (hle₁ : m₁.length ≤ ts.length)
    (hright : Returns depth (bindings operand more d power) m₁ right m₂)
    (hle₂ : m₂.length ≤ m₁.length)
    (hn : Returns depth (bindings operand more (Node.joined op left right) least) m₂ n rest) :
    Returns depth (bindings operand (more + 1) left least) (t :: ts) n rest := by
  have hop : operatorText? (t :: ts).head? = some op := operatorText?_operator ht
  have hnot : ¬ power ≤ least := by omega
  rw [bindings_succ]
  refine .look ?_
  simp only [hop, hp, hnot, if_false]
  exact .next (hd.after (hright.after hn hle₂) hle₁) (Nat.le_succ _)

theorem uncalled_returns {argument : Parser Scan Node} {ts : List Token}
    (h : isMark openParen ts.head? = false) (callee : Node) :
    Returns depth (invocation rounds argument callee) ts callee ts := by
  rw [invocation_eq]
  refine .look ?_
  simp only [h, Bool.false_eq_true, if_false]
  exact .pure _ _

theorem call_returns {item : Node → List Token → List Token → Prop} {argument : Parser Scan Node}
    {o c : Token} {args : List Node} {ts rest : List Token}
    (ho : o.lexeme = .punctuation openParen) (hc : c.lexeme = .punctuation closeParen)
    (h : Listed item closeParen comma true args ts (c :: rest)) (hr : ts.length < rounds)
    (hl : ∀ x us mid, item x us mid → mid.length < us.length)
    (hi : ∀ x us mid, item x us mid → us.length ≤ ts.length → Returns depth argument us x mid)
    (callee : Node) :
    Returns (depth + 1) (invocation rounds argument callee) (o :: ts) (.call callee args) rest := by
  rw [invocation_eq]
  refine .look ?_
  simp only [List.head?_cons, isMark_some.2 ho, if_true]
  exact (delimited_returns ho hc h hr hl hi).andPure _

section Atoms

variable {inner : Level Scan}

theorem group_returns {o c : Token} {n : Node} {ts rest : List Token}
    (ho : o.lexeme = .punctuation openParen) (hc : c.lexeme = .punctuation closeParen)
    (hn : Returns depth inner.expression ts n (c :: rest)) (hle : (c :: rest).length ≤ ts.length) :
    Returns (depth + 1) (Parser.atom rounds inner) (o :: ts) n rest := by
  refine .look ?_
  simp only [List.head?_cons, opening_group ho]
  have hclose : Returns depth (expectPunctuation closeParen >>= fun _ => pure n) (c :: rest)
      n rest := .mark hc (.pure _ _) (Nat.le_succ _)
  exact .mark ho (hn.after hclose hle) (Nat.le_refl _)

theorem declaration_returns {r b : Token} {name : Option String} {params : List String}
    {body : Node} {ts us vs rest : List Token} (hr : r.lexeme = .keyword ruleWord)
    (hname : Returns (depth + 1) name? ts name us) (hus : us.length ≤ ts.length)
    (hparams : Returns (depth + 1) (parameters rounds) us params (b :: vs))
    (hvs : (b :: vs).length ≤ us.length) (hb : b.lexeme = .punctuation openBrace)
    (hbody : Returns (depth + 1) (Parser.block rounds inner) (b :: vs) body rest) :
    Returns (depth + 1) (Parser.atom rounds inner) (r :: ts) (.rule name params body) rest := by
  refine .look ?_
  simp only [List.head?_cons, opening_declaration hr]
  rw [declaration_eq]
  refine .next (hname.after (hparams.after (.look ?_) hvs) hus) (Nat.le_succ _)
  simp only [List.head?_cons, isMark_some.2 hb, if_true]
  exact hbody.andPure _

theorem braces_returns {item : Node → List Token → List Token → Prop} {o c : Token}
    {nodes : List Node} {ts rest : List Token} (ho : o.lexeme = .punctuation openBrace)
    (hc : c.lexeme = .punctuation closeBrace)
    (h : Listed item closeBrace semicolon true nodes ts (c :: rest)) (hr : ts.length < rounds)
    (hl : ∀ x us mid, item x us mid → mid.length < us.length)
    (hi : ∀ x us mid, item x us mid → us.length ≤ ts.length →
      Returns depth inner.expression us x mid) :
    Returns (depth + 1) (Parser.atom rounds inner) (o :: ts) (Node.sequence nodes) rest := by
  refine .look ?_
  simp only [List.head?_cons, opening_braces ho]
  exact block_returns ho hc h hr hl hi

theorem rule_returns {item : Node → List Token → List Token → Prop} {r o c b d : Token}
    {name : Option String} {params : List Token} {nodes : List Node} {ts us vs rest : List Token}
    (hk : r.lexeme = .keyword ruleWord) (hname : Named name ts (o :: us))
    (ho : o.lexeme = .punctuation openParen) (hc : c.lexeme = .punctuation closeParen)
    (hparams : Listed Identifier closeParen comma true params us (c :: b :: vs))
    (hf : firstRepeated? [] params = none) (hb : b.lexeme = .punctuation openBrace)
    (hd : d.lexeme = .punctuation closeBrace)
    (h : Listed item closeBrace semicolon true nodes vs (d :: rest)) (hr : ts.length < rounds)
    (hl : ∀ x us mid, item x us mid → mid.length < us.length)
    (hi : ∀ x us mid, item x us mid → us.length ≤ ts.length →
      Returns depth inner.expression us x mid) :
    Returns (depth + 1) (Parser.atom rounds inner) (r :: ts)
      (.rule name (params.filterMap (·.lexeme.text?)) (Node.sequence nodes)) rest := by
  have hus : us.length + 1 ≤ ts.length := by
    cases hname <;> simp
  have hvs := hparams.length_le fun _ _ _ ht => Nat.le_of_lt (identifier_length ht)
  simp only [List.length_cons] at hvs
  have hbody : Returns (depth + 1) (Parser.block rounds inner) (b :: vs) (Node.sequence nodes)
      rest := block_returns hb hd h (by omega) hl fun x ws mid hx hle => hi x ws mid hx (by omega)
  have hparams' := parameters_returns ho hc hparams hf (by omega : us.length < rounds) depth
  refine declaration_returns hk (name?_returns hname ho (depth + 1)) hus hparams' ?_ hb hbody
  simp only [List.length_cons]
  omega

theorem truth_returns {t : Token} {value : Bool} {rest : List Token}
    (h : t.lexeme = .keyword (truthWord value)) :
    Returns (depth + 1) (Parser.atom rounds inner) (t :: rest) (.truth value) rest := by
  refine .look ?_
  simp only [List.head?_cons, opening_truth h]
  exact .next (.pure _ _) (Nat.le_succ _)

theorem leaf_returns {t : Token} {rest : List Token} (h : t.lexeme.isLeaf) :
    Returns (depth + 1) (Parser.atom rounds inner) (t :: rest) (.leaf t) rest := by
  refine .look ?_
  simp only [List.head?_cons, opening_leaf h]
  exact .next (.pure _ _) (Nat.le_succ _)

theorem signed_returns {s : Token} {n : Node} {ts rest : List Token}
    (hs : isOperatorAmong signOperators s.lexeme) (ht : ts.head?.any (takesSign ·.lexeme))
    (hn : Returns depth inner.operand ts n rest) :
    Returns (depth + 1) (Parser.atom rounds inner) (s :: ts) (applySign s n) rest := by
  refine .look ?_
  simp only [List.head?_cons, opening_sign hs]
  rw [signed_eq]
  refine .expect hs (.look ?_) (Nat.le_refl _)
  simp only [ht, if_true]
  exact hn.andPure _

end Atoms

theorem Reads.returned {phrase : Phrase} {ts rest : List Token} (h : Reads phrase ts rest)
    (hr : ts.length < rounds) : phrase.Returned rounds depth ts rest := by
  -- the part that is read first leaves fewer tokens, so the rounds are enough for the others
  induction h generalizing depth with
  | finish => exact fun left hleft => statements_nil_returns hleft
  | last hn ihn =>
    have hlt := expression_length hn
    exact fun left hleft => statements_last_returns (ihn hr) hlt (Nat.lt_of_le_of_lt hlt hleft)
  | @statement n ns s ts rest hn hs hns ihn ihns =>
    intro left hleft
    have hlt : rest.length + 1 < ts.length := expression_length hn
    obtain ⟨left, rfl⟩ : ∃ n, left = n + 1 := ⟨left - 1, by omega⟩
    exact statements_more_returns hs (ihn hr) hlt (ihns (by omega) left (by omega))
  | expression hd hc hn ihd ihc ihn =>
    have hd' := hd.length_le
    have hc' := hc.length_le
    simp only [Phrase.size] at hd' hc'
    cases depth with
    | zero => exact fun _ => .inr ⟨_, _, rfl, rfl, Nat.zero_le _⟩
    | succ depth =>
      have hoperand := @ihd (depth + 1) hr
      have hchain := @ihc (depth + 1) (by omega) rounds (by omega)
      have hcall := @ihn depth (by omega)
      refine Returns.after hoperand ?_ (by omega)
      exact Returns.after hchain hcall (by omega)
  | operand ha hn iha ihn =>
    have ha' := ha.length_le
    simp only [Phrase.size] at ha'
    cases depth with
    | zero => exact fun _ => .inr ⟨_, _, rfl, rfl, Nat.zero_le _⟩
    | succ depth => exact (iha hr).after (ihn (by omega)) (by omega)
  | @uncalled callee ts h => exact uncalled_returns h callee
  | @call item o c callee args ts rest hi ho hc hl ih =>
    rw [List.length_cons] at hr
    exact call_returns ho hc hl (by omega) (fun _ _ _ hx => expression_length (hi _ _ _ hx))
      (fun _ _ _ hx hle => ih _ _ _ hx (by omega)) callee
  | @bound left least ts hs =>
    intro more hmore
    obtain ⟨more, rfl⟩ : ∃ n, more = n + 1 := ⟨more - 1, by omega⟩
    exact bindings_bound_returns hs left more
  | @pair t op power least left d right n ts m₁ m₂ rest ht hp hlt hd hright hn ihd ihright ihn =>
    intro more hmore
    rw [List.length_cons] at hr hmore
    have hd' := hd.length_le
    have hright' := hright.length_le
    simp only [Phrase.size] at hd' hright'
    obtain ⟨more, rfl⟩ : ∃ n, more = n + 1 := ⟨more - 1, by omega⟩
    have hfirst := @ihright depth (by omega) more (by omega)
    have hrest := @ihn depth (by omega) more (by omega)
    exact bindings_pair_returns ht hp hlt (ihd (by omega)) (by omega) hfirst (by omega) hrest
  | @group o c n ts rest ho hc hn ih =>
    rw [List.length_cons] at hr
    exact group_returns ho hc (ih (by omega)) (Nat.le_of_lt (expression_length hn))
  | block hi ho hc hl ih =>
    rw [List.length_cons] at hr
    exact braces_returns ho hc hl (by omega) (fun _ _ _ hx => expression_length (hi _ _ _ hx))
      fun _ _ _ hx hle => ih _ _ _ hx (by omega)
  | rule hi hk hname ho hc hparams hf hb hd hl ih =>
    rw [List.length_cons] at hr
    exact rule_returns hk hname ho hc hparams hf hb hd hl (by omega)
      (fun _ _ _ hx => expression_length (hi _ _ _ hx))
      fun _ _ _ hx hle => ih _ _ _ hx (by omega)
  | sign hs ht hn ih =>
    rw [List.length_cons] at hr
    exact signed_returns hs ht (ih (by omega))
  | truth ht => exact truth_returns ht
  | leaf ht => exact leaf_returns ht

end Phrases

end RuleLang.Parser
