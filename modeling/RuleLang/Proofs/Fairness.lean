import RuleLang.Proofs.Outcome

/-!
What is called unexpected. A reader reports the next token as unexpected only where it wants an
operand and the token can start none. So the message of a refusal quotes keywords, operators and
punctuation alone, never a name or a literal. What is wrong with the text itself is not for a
reader to say: such a failure only passes through it, when it has come to the last token.
-/
namespace RuleLang

/-- A token that is called unexpected starts no operand, and the characters are not judged. -/
def Cause.Fair : Cause → Prop
  | unexpected x => Parser.Opening.of x = .none
  | illegalCharacter _ | unterminatedString => False
  | _ => True

def Failure.Fair : Failure → Prop
  | malformed e => e.cause.Fair
  | _ => True

namespace Parser

open Vocabulary

variable {α β : Type}

/-- The reader fails with good reason, or because the list breaks off behind its last token. -/
def Fair (p : Parser Scan α) : Prop :=
  ∀ s : Scan, match p s with
    | .ok _ s' => s'.failure = s.failure
    | .error e s' => s'.failure = s.failure ∧ (e.Fair ∨ s'.tokens = [] ∧ s.failure = some e)

theorem Fair.pure (a : α) : Fair (pure a : Parser Scan α) := fun _ => rfl

theorem Fair.exhausted : Fair (throw .exhausted : Parser Scan α) := fun _ => ⟨rfl, .inl trivial⟩

theorem Fair.failAt (place : Position) {cause : Cause} (hc : cause.Fair) :
    Fair (failAt place cause : Parser Scan α) := fun _ => ⟨rfl, .inl hc⟩

theorem Fair.fail {cause : Cause} (hc : cause.Fair) :
    Fair (Parser.fail cause : Parser Scan α) := fun _ => ⟨rfl, .inl hc⟩

theorem Fair.bind {p : Parser Scan α} {f : α → Parser Scan β} (hp : Fair p)
    (hf : ∀ a, Fair (f a)) : Fair (p >>= f) := by
  intro s
  have h := hp s
  cases hr : p s with
  | ok a s' =>
    rw [hr] at h
    rw [bind_of_ok hr, ← h]
    exact hf a s'
  | error e s' =>
    rw [hr] at h
    rw [bind_of_error hr]
    exact h

theorem Fair.look {f : Option Token → Parser Scan α} (hf : ∀ t, Fair (f t)) :
    Fair (peek >>= f) := by
  intro s
  obtain ⟨_ | ⟨t, ts⟩, stop, _ | e⟩ := s
  · exact hf none ⟨[], stop, none⟩
  · exact ⟨rfl, .inr ⟨rfl, rfl⟩⟩
  · exact hf (some t) ⟨t :: ts, stop, none⟩
  · exact hf (some t) ⟨t :: ts, stop, some e⟩

theorem Fair.next : Fair next := by
  intro s
  obtain ⟨_ | ⟨t, ts⟩, stop, _ | e⟩ := s
  · rfl
  · exact ⟨rfl, .inr ⟨rfl, rfl⟩⟩
  · rfl
  · rfl

theorem Fair.expect (wanted : Lexeme → Bool) {cause : Cause} (hc : cause.Fair) :
    Fair (expect wanted cause) := by
  apply Fair.look
  intro t
  cases t with
  | none => exact .fail hc
  | some t =>
    dsimp only
    split
    · exact .bind .next fun _ => .pure t
    · exact .fail hc

theorem Fair.punctuation (text : String) : Fair (expectPunctuation text) := .expect _ trivial

theorem items_fair (stop separator : String) {item : Parser Scan α} (hi : Fair item)
    (rounds : Nat) (first : Bool) : Fair (items stop separator item rounds first) := by
  induction rounds generalizing first with
  | zero => exact .exhausted
  | succ rounds ih =>
    have hfrom : Fair (itemsFrom stop separator item rounds) := by
      apply Fair.look
      intro t
      split
      · exact .pure []
      · exact hi.bind fun x => (ih false).bind fun xs => .pure (x :: xs)
    cases first with
    | true =>
      rw [items_first]
      apply Fair.look
      intro t
      split
      · exact .pure []
      · exact hfrom
    | false =>
      rw [items_later]
      apply Fair.look
      intro t
      split
      · exact .pure []
      · exact .bind (.punctuation separator) fun _ => hfrom

theorem delimited_fair (rounds : Nat) (start stop separator : String) {item : Parser Scan α}
    (hi : Fair item) : Fair (delimited rounds start stop separator item) :=
  .bind (.punctuation start) fun _ => .bind (items_fair stop separator hi rounds true) fun xs =>
    .bind (.punctuation stop) fun _ => .pure xs

theorem bindings_fair {operand : Parser Scan Node} (ho : Fair operand) (rounds : Nat)
    (left : Node) (least : Int) : Fair (bindings operand rounds left least) := by
  induction rounds generalizing left least with
  | zero => exact .exhausted
  | succ rounds ih =>
    rw [bindings_succ]
    apply Fair.look
    intro t
    cases operatorText? t with
    | none => exact .pure left
    | some op =>
      cases hp : bindingPower? op with
      | none => simpa only [hp] using .fail trivial
      | some power =>
        simp only [hp]
        split
        · exact .pure left
        · exact .bind .next fun _ => ho.bind fun d => (ih d power).bind fun right => ih _ least

theorem invocation_fair {argument : Parser Scan Node} (ha : Fair argument) (rounds : Nat)
    (node : Node) : Fair (invocation rounds argument node) := by
  rw [invocation_eq]
  apply Fair.look
  intro t
  split
  · exact .bind (delimited_fair rounds openParen closeParen comma ha) fun xs => .pure _
  · exact .pure node

theorem name?_fair : Fair (name? : Parser Scan (Option String)) := by
  rw [name?_eq]
  apply Fair.look
  intro t
  split
  · exact .bind (.expect _ trivial) fun _ => .pure _
  · exact .pure none

theorem parameters_fair (rounds : Nat) : Fair (parameters rounds : Parser Scan (List String)) := by
  rw [parameters_eq]
  apply Fair.look
  intro t
  split
  · refine .bind (delimited_fair rounds openParen closeParen comma (.expect _ trivial)) ?_
    intro params
    unfold declared
    split
    · exact .failAt _ trivial
    · exact .pure _
  · exact .fail trivial

structure Level.Fair (inner : Level Scan) : Prop where
  operand : Parser.Fair inner.operand
  expression : Parser.Fair inner.expression

variable {inner : Level Scan}

theorem group_fair (hi : inner.Fair) : Fair (group inner) :=
  .bind (.punctuation openParen) fun _ => hi.expression.bind fun node =>
    .bind (.punctuation closeParen) fun _ => .pure node

theorem block_fair (hi : inner.Fair) (rounds : Nat) : Fair (block rounds inner) :=
  .bind (delimited_fair rounds openBrace closeBrace semicolon hi.expression) fun _ => .pure _

theorem declaration_fair (hi : inner.Fair) (rounds : Nat) : Fair (declaration rounds inner) := by
  rw [declaration_eq]
  refine .bind .next fun _ => name?_fair.bind fun name => ?_
  refine (parameters_fair rounds).bind fun params => Fair.look fun t => ?_
  split
  · exact (block_fair hi rounds).bind fun body => .pure _
  · exact .fail trivial

theorem signed_fair (hi : inner.Fair) : Fair (signed inner) := by
  rw [signed_eq]
  refine .bind (.expect _ trivial) fun sign => Fair.look fun t => ?_
  split
  · exact hi.operand.bind fun node => .pure _
  · exact .fail trivial

theorem atom_fair (hi : inner.Fair) (rounds : Nat) : Fair (atom rounds inner) := by
  intro s
  obtain ⟨ts, stop, e⟩ := s
  cases ts with
  | nil =>
    cases e with
    | none => exact ⟨rfl, .inl trivial⟩
    | some e => exact ⟨rfl, .inr ⟨rfl, rfl⟩⟩
  | cons t ts =>
    rw [atom, look_cons]
    dsimp only
    cases ho : Opening.of t.lexeme with
    | group => exact group_fair hi _
    | braces => exact block_fair hi rounds _
    | declaration => exact declaration_fair hi rounds _
    | sign => exact signed_fair hi _
    | truth value => exact rfl
    | leaf => exact rfl
    | none => exact ⟨rfl, .inl ho⟩

theorem level_fair (rounds depth : Nat) : (level rounds depth : Level Scan).Fair := by
  induction depth with
  | zero => exact ⟨.fail trivial, .fail trivial⟩
  | succ depth ih =>
    have hcall := invocation_fair ih.expression rounds
    have ho : Fair (operand rounds (level rounds depth)) := (atom_fair ih rounds).bind hcall
    exact ⟨ho, ho.bind fun d => (bindings_fair ho rounds d 0).bind hcall⟩

theorem statements_fair {statement : Parser Scan Node} (hs : Fair statement) (rounds : Nat) :
    Fair (statements statement rounds) := by
  induction rounds with
  | zero => exact .exhausted
  | succ rounds ih =>
    have hrest (node : Node) : Fair (do
        let nodes ← statements statement rounds
        return node :: nodes) := ih.bind fun nodes => .pure (node :: nodes)
    rw [statements_succ]
    apply Fair.look
    intro t
    split
    · exact .pure []
    · refine hs.bind fun node => Fair.look fun t => ?_
      split
      · exact hrest node
      · exact .bind (.punctuation semicolon) fun _ => hrest node

theorem program_fair (limit : Nat) (s : Scan) (hs : s.failure = none) :
    match program limit s with
    | .ok _ s' => s'.failure = none
    | .error e _ => e.Fair := by
  have hfair : Fair (program limit) := fun s =>
    statements_fair (level_fair _ limit).expression _ s
  have h := hfair s
  rw [hs] at h
  cases hp : program limit s with
  | ok nodes s' =>
    rw [hp] at h
    exact h
  | error e s' =>
    rw [hp] at h
    exact h.2.resolve_right nofun

end Parser

end RuleLang
