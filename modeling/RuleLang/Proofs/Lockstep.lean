import RuleLang.Proofs.Correspondence

/-!
Readers in lockstep. Two readers are in lockstep if they look at, take and refuse corresponding
tokens in the same order, so that neither can tell its source from the other's. Every production
is in lockstep with itself on any two sources. A reader that has run out of rounds is in
lockstep with every other, so that more rounds change nothing else.
-/
namespace RuleLang.Parser

open Vocabulary

/-- Lockstep of two readers whose values are related. Only a reader that is ready, its next token
having been looked at, may refuse that token. -/
inductive Lockstep (c : Correspondence) (σ τ : Type) [TokenSource σ] [TokenSource τ] :
    Bool → {α β : Type} → (α → β → Prop) → Parser σ α → Parser τ β → Prop
  | pure {ready : Bool} {α β : Type} {V : α → β → Prop} {a : α} {b : β} :
    V a b → Lockstep c σ τ ready V (pure a) (pure b)
  | bind {ready : Bool} {α β γ δ : Type} {V : α → β → Prop} {W : γ → δ → Prop}
    {p : Parser σ α} {q : Parser τ β} {f : α → Parser σ γ} {g : β → Parser τ δ} :
    Lockstep c σ τ ready V p q → (∀ a b, V a b → Lockstep c σ τ false W (f a) (g b)) →
    Lockstep c σ τ ready W (p >>= f) (q >>= g)
  | look {ready : Bool} {α β : Type} {V : α → β → Prop}
    {f : Option Token → Parser σ α} {g : Option Token → Parser τ β} :
    (∀ t u, Option.Rel c.token t u → Lockstep c σ τ true V (f t) (g u)) →
    Lockstep c σ τ ready V (peek >>= f) (peek >>= g)
  | next {ready : Bool} : Lockstep c σ τ ready (Option.Rel c.token) next next
  | fail {α β : Type} {V : α → β → Prop} {x y : Cause} :
    x.Matches c y → (∀ a, x ≠ .duplicateParameter a) →
    Lockstep c σ τ true V (fail x) (fail y)
  | refuse {ready : Bool} {α β : Type} {V : α → β → Prop} (text : String) {t u : Token}
    {a b : String} : c.token t u → c.name a b →
    Lockstep c σ τ ready V
      (expectPunctuation text >>= fun _ => failAt t.position (.duplicateParameter a))
      (expectPunctuation text >>= fun _ => failAt u.position (.duplicateParameter b))
  | tooDeep {ready : Bool} {α β : Type} {V : α → β → Prop} :
    Lockstep c σ τ ready V (Parser.fail .nestingTooDeep) (Parser.fail .nestingTooDeep)
  | exhausted {ready : Bool} {α β : Type} {V : α → β → Prop} (q : Parser τ β) :
    Lockstep c σ τ ready V (throw .exhausted) q

variable {c : Correspondence} {σ τ : Type} [TokenSource σ] [TokenSource τ] {ready : Bool}
  {α β : Type} {V : α → β → Prop}

theorem Lockstep.of_le {was : Bool} {p : Parser σ α} {q : Parser τ β}
    (h : Lockstep c σ τ was V p q) (hr : was = true → ready = true) :
    Lockstep c σ τ ready V p q := by
  induction h with
  | pure h => exact .pure h
  | bind hp hf ih => exact .bind (ih hr) hf
  | look h => exact .look h
  | next => exact .next
  | fail h hx =>
    obtain rfl := hr rfl
    exact .fail h hx
  | refuse text ht ha => exact .refuse text ht ha
  | tooDeep => exact .tooDeep
  | exhausted q => exact .exhausted q

theorem Lockstep.weaken {p : Parser σ α} {q : Parser τ β} (h : Lockstep c σ τ false V p q) :
    Lockstep c σ τ ready V p q := h.of_le nofun

theorem any_eq {t u : Option Token} {f : Token → Bool} (h : Option.Rel c.token t u)
    (hf : ∀ t u, t.lexeme.Matches c.name u.lexeme → f t = f u) : t.any f = u.any f := by
  cases h with
  | none => rfl
  | some h => simpa using hf _ _ (c.lexeme h)

theorem isMark_eq {t u : Option Token} (h : Option.Rel c.token t u) (text : String) :
    isMark text t = isMark text u := by
  apply any_eq h
  intro t u hx
  simp only [hx.punctuation_iff]

theorem isNone_eq {t u : Option Token} (h : Option.Rel c.token t u) : t.isNone = u.isNone := by
  cases h <;> rfl

theorem expect_lockstep {wanted : Lexeme → Bool} {cause : Cause}
    (hw : ∀ x y, x.Matches c.name y → wanted x = wanted y)
    (hc : ∀ a, cause ≠ .duplicateParameter a) :
    Lockstep c σ τ ready (fun t u => c.token t u ∧ wanted t.lexeme)
      (expect wanted cause) (expect wanted cause) := by
  apply Lockstep.look
  intro t u h
  cases h with
  | none => exact .fail (.same _) hc
  | some h =>
    simp only [← hw _ _ (c.lexeme h)]
    split
    · next ht => exact .bind .next fun _ _ _ => .pure ⟨h, ht⟩
    · exact .fail (.same _) hc

theorem expectPunctuation_lockstep (text : String) :
    Lockstep c σ τ ready (fun t u => c.token t u ∧ t.lexeme = .punctuation text)
      (expectPunctuation text) (expectPunctuation text) := by
  have h : Lockstep c σ τ ready _ (expectPunctuation text) (expectPunctuation text) :=
    expect_lockstep (fun x y h => by simp only [h.punctuation_iff]) (by simp)
  simp only [decide_eq_true_eq] at h
  exact h

theorem expectIdentifier_lockstep :
    Lockstep c σ τ ready (fun t u => c.token t u ∧ t.kind = .identifier)
      expectIdentifier expectIdentifier := by
  have h : Lockstep c σ τ ready _ expectIdentifier expectIdentifier :=
    expect_lockstep (fun x y h => by simp only [h.kind_eq]) (by simp)
  simp only [decide_eq_true_eq] at h
  exact h

theorem expectOperator_lockstep (choices : List String) :
    Lockstep c σ τ ready (fun t u => c.token t u ∧ isOperatorAmong choices t.lexeme)
      (expectOperator choices) (expectOperator choices) :=
  expect_lockstep (fun _ _ h => h.isOperatorAmong_eq choices) (by simp)

theorem unexpected_lockstep : Lockstep c σ τ ready V unexpected unexpected := by
  apply Lockstep.look
  intro t u h
  cases h with
  | none => exact .fail (.same _) (by simp)
  | some h => exact .fail (.unexpected h) (by simp)

section Lists

variable {item : Parser σ α} {item' : Parser τ β} {rounds rounds' : Nat}

theorem items_lockstep (stop separator : String) (hi : Lockstep c σ τ false V item item')
    (hr : rounds ≤ rounds') (first : Bool) :
    Lockstep c σ τ ready (List.Forall₂ V) (items stop separator item rounds first)
      (items stop separator item' rounds' first) := by
  induction rounds generalizing rounds' first ready with
  | zero => exact .exhausted _
  | succ rounds ih =>
    obtain ⟨rounds', rfl⟩ : ∃ n, rounds' = n + 1 := ⟨rounds' - 1, by omega⟩
    have from_lockstep {ready : Bool} : Lockstep c σ τ ready (List.Forall₂ V)
        (itemsFrom stop separator item rounds) (itemsFrom stop separator item' rounds') := by
      apply Lockstep.look
      intro t u h
      simp only [isMark_eq h]
      split
      · exact .pure .nil
      · exact .bind hi.weaken fun x y hx =>
          .bind (ih (by omega) false) fun xs ys hxs => .pure (.cons hx hxs)
    cases first with
    | true =>
      rw [items_first, items_first]
      apply Lockstep.look
      intro t u h
      simp only [isMark_eq h, isNone_eq h]
      split
      · exact .pure .nil
      · exact from_lockstep
    | false =>
      rw [items_later, items_later]
      apply Lockstep.look
      intro t u h
      simp only [isMark_eq h, isNone_eq h]
      split
      · exact .pure .nil
      · exact .bind (expectPunctuation_lockstep separator) fun _ _ _ => from_lockstep

theorem delimited_bind (rounds : Nat) (start stop separator : String) (item : Parser σ α)
    (f : List α → Parser σ β) :
    delimited rounds start stop separator item >>= f = (do
      let _ ← expectPunctuation start
      let xs ← items stop separator item rounds true
      let _ ← expectPunctuation stop
      f xs) := by
  simp only [delimited, bind_assoc, pure_bind]

theorem delimited_lockstep (start stop separator : String)
    (hi : Lockstep c σ τ false V item item') (hr : rounds ≤ rounds') :
    Lockstep c σ τ ready (List.Forall₂ V) (delimited rounds start stop separator item)
      (delimited rounds' start stop separator item') :=
  .bind (expectPunctuation_lockstep start) fun _ _ _ =>
    .bind (items_lockstep stop separator hi hr true) fun _ _ h =>
      .bind (expectPunctuation_lockstep stop) fun _ _ _ => .pure h

end Lists

theorem operatorText?_eq {t u : Option Token} (h : Option.Rel c.token t u) :
    operatorText? t = operatorText? u := by
  cases h with
  | none => rfl
  | @some t u h =>
    obtain ⟨x, p⟩ := t
    obtain ⟨y, q⟩ := u
    have hx := c.lexeme h
    cases hx <;> rfl

section Chains

variable {rounds rounds' : Nat}

theorem bindings_lockstep {operand : Parser σ Node} {operand' : Parser τ Node}
    (ho : Lockstep c σ τ false (Node.Matches c) operand operand') (hr : rounds ≤ rounds')
    {left left' : Node} (hl : left.Matches c left') (least : Int) :
    Lockstep c σ τ ready (Node.Matches c) (bindings operand rounds left least)
      (bindings operand' rounds' left' least) := by
  induction rounds generalizing rounds' left left' least ready with
  | zero => exact .exhausted _
  | succ rounds ih =>
    obtain ⟨rounds', rfl⟩ : ∃ n, rounds' = n + 1 := ⟨rounds' - 1, by omega⟩
    have hn : rounds ≤ rounds' := by omega
    rw [bindings_succ, bindings_succ]
    apply Lockstep.look
    intro t u h
    rw [operatorText?_eq h]
    cases operatorText? u with
    | none => exact .pure hl
    | some op =>
      cases hp : bindingPower? op with
      | none => simpa only [hp] using .fail (.same _) (by simp)
      | some power =>
        simp only [hp]
        split
        · exact .pure hl
        · refine .bind .next fun _ _ _ => .bind ho fun d d' hd => ?_
          refine .bind (ih hn hd power) fun right right' hright => ?_
          exact ih hn (Node.matches_joined op hl hright) least

theorem invocation_lockstep {argument : Parser σ Node} {argument' : Parser τ Node}
    (ha : Lockstep c σ τ false (Node.Matches c) argument argument') (hr : rounds ≤ rounds')
    {node node' : Node} (hn : node.Matches c node') :
    Lockstep c σ τ ready (Node.Matches c) (invocation rounds argument node)
      (invocation rounds' argument' node') := by
  rw [invocation_eq, invocation_eq]
  apply Lockstep.look
  intro t u h
  rw [isMark_eq h]
  split
  · refine .bind (delimited_lockstep openParen closeParen comma ha hr) fun xs ys h => ?_
    exact .pure ⟨hn, Node.matchesAll_iff.2 h⟩
  · exact .pure hn

structure Level.Lockstep (c : Correspondence) (inner : Level σ) (inner' : Level τ) : Prop where
  operand : Parser.Lockstep c σ τ false (Node.Matches c) inner.operand inner'.operand
  expression : Parser.Lockstep c σ τ false (Node.Matches c) inner.expression inner'.expression

variable {inner : Level σ} {inner' : Level τ}

theorem group_lockstep (hi : inner.Lockstep c inner') :
    Lockstep c σ τ ready (Node.Matches c) (group inner) (group inner') :=
  .bind (expectPunctuation_lockstep openParen) fun _ _ _ =>
    .bind hi.expression fun _ _ h =>
      .bind (expectPunctuation_lockstep closeParen) fun _ _ _ => .pure h

theorem block_lockstep (hi : inner.Lockstep c inner') (hr : rounds ≤ rounds') :
    Lockstep c σ τ ready (Node.Matches c) (block rounds inner) (block rounds' inner') :=
  .bind (delimited_lockstep openBrace closeBrace semicolon hi.expression hr) fun _ _ h =>
    .pure (Node.matches_sequence h)

end Chains

theorem name?_lockstep : Lockstep c σ τ ready (Option.Rel c.name) name? name? := by
  rw [name?_eq, name?_eq]
  apply Lockstep.look
  intro t u h
  rw [any_eq h fun t u hx => by rw [Token.kind, hx.kind_eq, Token.kind]]
  split
  · exact .bind expectIdentifier_lockstep fun x y ⟨hxy, hx⟩ =>
      .pure ((c.lexeme hxy).text?_rel hx)
  · exact .pure .none

theorem mem_names_iff {t u : Option String} {es fs : List (Option String)}
    (ht : Option.Rel c.name t u) (he : List.Forall₂ (Option.Rel c.name) es fs) :
    t ∈ es ↔ u ∈ fs := by
  induction he with
  | nil => simp
  | @cons e f _ _ h hr ih =>
    have hh : t = e ↔ u = f := by
      cases ht with
      | none => cases h <;> simp
      | some hab =>
        cases h with
        | none => simp
        | some hcd => simpa using c.sameName hab hcd
    simp only [List.mem_cons, ih, hh]

theorem firstRepeated?_rel {xs ys : List Token} {es fs : List (Option String)}
    (h : List.Forall₂ (fun t u => c.token t u ∧ t.kind = .identifier) xs ys)
    (he : List.Forall₂ (Option.Rel c.name) es fs) :
    Option.Rel (fun t u => c.token t u ∧ t.kind = .identifier)
      (firstRepeated? es xs) (firstRepeated? fs ys) := by
  induction h generalizing es fs with
  | nil => exact .none
  | cons hxy hr ih =>
    have hn := (c.lexeme hxy.1).text?_rel hxy.2
    simp only [firstRepeated?, mem_names_iff hn he]
    split
    · exact .some hxy
    · exact ih (List.rel_append he (.cons hn .nil))

theorem names_rel {xs ys : List Token}
    (h : List.Forall₂ (fun t u => c.token t u ∧ t.kind = .identifier) xs ys) :
    List.Forall₂ c.name (xs.filterMap (·.lexeme.text?)) (ys.filterMap (·.lexeme.text?)) := by
  induction h with
  | nil => exact .nil
  | @cons t u _ _ htu hr ih =>
    obtain ⟨a, b, hx, hy, hab⟩ := (c.lexeme htu.1).identifier_names htu.2
    simp only [List.filterMap_cons, hx, hy, Lexeme.text?]
    exact .cons hab ih

theorem declared_lockstep {xs ys : List Token}
    (h : List.Forall₂ (fun t u => c.token t u ∧ t.kind = .identifier) xs ys) :
    Lockstep c σ τ ready (List.Forall₂ c.name)
      (expectPunctuation closeParen >>= fun _ => declared xs)
      (expectPunctuation closeParen >>= fun _ => declared ys) := by
  have hf := firstRepeated?_rel h .nil
  unfold declared
  generalize firstRepeated? [] xs = t at hf
  generalize firstRepeated? [] ys = u at hf
  cases hf with
  | none => exact .bind (expectPunctuation_lockstep closeParen) fun _ _ _ => .pure (names_rel h)
  | @some t u htu =>
    obtain ⟨a, b, hx, hy, hab⟩ := (c.lexeme htu.1).identifier_names htu.2
    simp only [hx, hy, Lexeme.text?, Option.getD_some]
    exact .refuse closeParen htu.1 hab

section Declarations

variable {rounds rounds' : Nat} {inner : Level σ} {inner' : Level τ}

theorem parameters_lockstep (hr : rounds ≤ rounds') :
    Lockstep c σ τ ready (List.Forall₂ c.name) (parameters rounds) (parameters rounds') := by
  rw [parameters_eq, parameters_eq]
  apply Lockstep.look
  intro t u h
  rw [isMark_eq h]
  split
  · rw [delimited_bind, delimited_bind]
    refine .bind (expectPunctuation_lockstep openParen) fun _ _ _ => ?_
    refine .bind (items_lockstep closeParen comma expectIdentifier_lockstep hr true) ?_
    exact fun xs ys h => declared_lockstep h
  · exact .fail (.same _) (by simp)

theorem declaration_lockstep (hi : inner.Lockstep c inner') (hr : rounds ≤ rounds') :
    Lockstep c σ τ ready (Node.Matches c) (declaration rounds inner)
      (declaration rounds' inner') := by
  rw [declaration_eq, declaration_eq]
  refine .bind .next fun _ _ _ => .bind name?_lockstep fun name name' hn => ?_
  refine .bind (parameters_lockstep hr) fun ps qs hp => Lockstep.look ?_
  intro t u h
  rw [isMark_eq h]
  split
  · exact .bind (block_lockstep hi hr) fun body body' hb => .pure ⟨hn, hp, hb⟩
  · exact .fail (.same _) (by simp)

theorem applySign_matches {t u : Token} {node node' : Node} (h : c.token t u)
    (hn : node.Matches c node') : (applySign t node).Matches c (applySign u node') := by
  simp only [applySign, (c.lexeme h).operator_iff]
  split
  · exact ⟨rfl, c.minusOne h, hn⟩
  · exact hn

theorem signed_lockstep (hi : inner.Lockstep c inner') :
    Lockstep c σ τ ready (Node.Matches c) (signed inner) (signed inner') := by
  rw [signed_eq, signed_eq]
  refine .bind (expectOperator_lockstep signOperators) fun sign sign' hs => Lockstep.look ?_
  intro t u h
  rw [any_eq h fun t u hx => hx.takesSign_eq]
  split
  · exact .bind hi.operand.weaken fun node node' hn => .pure (applySign_matches hs.1 hn)
  · exact .fail (.same _) (by simp)

theorem atom_lockstep (hi : inner.Lockstep c inner') (hr : rounds ≤ rounds') :
    Lockstep c σ τ ready (Node.Matches c) (atom rounds inner) (atom rounds' inner') := by
  apply Lockstep.look
  intro t u h
  cases h with
  | none => exact unexpected_lockstep
  | @some t u h =>
    simp only [(c.lexeme h).opening_eq]
    cases Opening.of u.lexeme with
    | group => exact group_lockstep hi
    | braces => exact block_lockstep hi hr
    | declaration => exact declaration_lockstep hi hr
    | sign => exact signed_lockstep hi
    | truth value => exact .bind .next fun _ _ _ => .pure rfl
    | leaf => exact .bind .next fun _ _ _ => .pure h
    | none => exact unexpected_lockstep

theorem operand_lockstep (hi : inner.Lockstep c inner') (hr : rounds ≤ rounds') :
    Lockstep c σ τ ready (Node.Matches c) (operand rounds inner) (operand rounds' inner') :=
  .bind (atom_lockstep hi hr) fun _ _ h => invocation_lockstep hi.expression hr h

theorem expression_lockstep {operand : Parser σ Node} {operand' : Parser τ Node}
    (hi : inner.Lockstep c inner') (hr : rounds ≤ rounds')
    (ho : Lockstep c σ τ false (Node.Matches c) operand operand') :
    Lockstep c σ τ ready (Node.Matches c) (expression rounds inner operand)
      (expression rounds' inner' operand') :=
  .bind ho.weaken fun _ _ h => .bind (bindings_lockstep ho hr h 0) fun _ _ h =>
    invocation_lockstep hi.expression hr h

theorem level_lockstep (hr : rounds ≤ rounds') (depth : Nat) :
    (level rounds depth : Level σ).Lockstep c (level rounds' depth : Level τ) := by
  induction depth with
  | zero => exact ⟨.tooDeep, .tooDeep⟩
  | succ depth ih =>
    have ho {ready : Bool} : Lockstep c σ τ ready (Node.Matches c)
        (operand rounds (level rounds depth)) (operand rounds' (level rounds' depth)) :=
      operand_lockstep ih hr
    exact ⟨ho, expression_lockstep ih hr ho⟩

theorem statements_lockstep {statement : Parser σ Node} {statement' : Parser τ Node}
    (hs : Lockstep c σ τ false (Node.Matches c) statement statement') (hr : rounds ≤ rounds') :
    Lockstep c σ τ ready (List.Forall₂ (Node.Matches c)) (statements statement rounds)
      (statements statement' rounds') := by
  induction rounds generalizing rounds' ready with
  | zero => exact .exhausted _
  | succ rounds ih =>
    obtain ⟨rounds', rfl⟩ : ∃ n, rounds' = n + 1 := ⟨rounds' - 1, by omega⟩
    rw [statements_succ, statements_succ]
    apply Lockstep.look
    intro t u h
    rw [isNone_eq h]
    split
    · exact .pure .nil
    · refine .bind hs.weaken fun node node' hn => Lockstep.look ?_
      intro t u h
      rw [isNone_eq h]
      have hle : rounds ≤ rounds' := by omega
      split
      · exact .bind (ih hle) fun _ _ h => .pure (.cons hn h)
      · exact .bind (expectPunctuation_lockstep semicolon) fun _ _ _ =>
          .bind (ih hle) fun _ _ h => .pure (.cons hn h)

theorem program_lockstep (hr : rounds ≤ rounds') (limit : Nat) :
    Lockstep c σ τ false (List.Forall₂ (Node.Matches c))
      (statements (level rounds limit).expression rounds)
      (statements (level rounds' limit).expression rounds') :=
  statements_lockstep (level_lockstep hr limit).expression hr

end Declarations

end RuleLang.Parser
