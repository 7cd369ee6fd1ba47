import RuleLang.Proofs.Simulation

/-!
Rounds never run out. Each item of a list, each pair of a chain and each statement takes a token
or more, so a loop that is allotted more rounds than there are tokens left ends before they are
used up, and any larger allotment gives the same outcome.
-/
namespace RuleLang.Parser

open Vocabulary

variable {α β : Type}

/-- On at most `n` tokens the reader takes `k` tokens or more if it succeeds, and does not run
out of rounds if it fails. -/
def Paced (n k : Nat) (p : Parser Scan α) : Prop :=
  ∀ s : Scan, s.tokens.length ≤ n → s.failure ≠ some .exhausted →
    match p s with
    | .ok _ s' => s'.tokens.length + k ≤ s.tokens.length ∧ s'.failure = s.failure
    | .error e _ => e ≠ .exhausted

variable {n m k l : Nat}

theorem Paced.mono {p : Parser Scan α} (h : Paced n k p) (hn : m ≤ n) (hk : l ≤ k) :
    Paced m l p := by
  intro s hs he
  have hp := h s (by omega) he
  cases hr : p s with
  | ok a s' =>
    rw [hr] at hp
    exact ⟨by have := hp.1; omega, hp.2⟩
  | error e s' =>
    rw [hr] at hp
    exact hp

theorem Paced.not_exhausted {p : Parser Scan α} (h : Paced n k p) {s s' : Scan}
    (hs : s.tokens.length ≤ n) (he : s.failure ≠ some .exhausted) :
    p s ≠ .error .exhausted s' := by
  intro hr
  have hp := h s hs he
  rw [hr] at hp
  exact hp rfl

theorem Paced.pure (a : α) : Paced n 0 (pure a : Parser Scan α) := by
  intro s _ _
  exact ⟨Nat.le_refl _, rfl⟩

theorem Paced.bind {p : Parser Scan α} {f : α → Parser Scan β} (hp : Paced n k p)
    (hf : ∀ a, k ≤ n → Paced (n - k) l (f a)) : Paced n (k + l) (p >>= f) := by
  intro s hs he
  have h := hp s hs he
  cases hr : p s with
  | ok a s' =>
    rw [hr] at h
    rw [bind_of_ok hr]
    have hq := hf a (by omega) s' (by omega) (h.2 ▸ he)
    cases hr' : f a s' with
    | ok b s'' =>
      rw [hr'] at hq
      exact ⟨by have := hq.1; omega, hq.2.trans h.2⟩
    | error e s'' =>
      rw [hr'] at hq
      exact hq
  | error e s' =>
    rw [hr] at h
    rw [bind_of_error hr]
    exact h

theorem Paced.then {p : Parser Scan α} {f : α → Parser Scan β} (hp : Paced n k p)
    (hf : ∀ a, k ≤ n → Paced (n - k) 0 (f a)) : Paced n k (p >>= f) := hp.bind hf

theorem Paced.after {p : Parser Scan α} {f : α → Parser Scan β} (hp : Paced n 0 p)
    (hf : ∀ a, Paced n l (f a)) : Paced n l (p >>= f) := by
  simpa using hp.bind fun a _ => hf a

theorem Paced.free {p : Parser Scan α} (h : Paced n k p) : Paced n 0 p :=
  h.mono (Nat.le_refl n) (Nat.zero_le k)

theorem Paced.fewer {p : Parser Scan α} (h : Paced n k p) (hm : m ≤ n) : Paced m k p :=
  h.mono hm (Nat.le_refl k)

theorem Paced.look {f : Option Token → Parser Scan α} (hf : ∀ t, Paced n k (f t)) :
    Paced n k (peek >>= f) := by
  intro s hs he
  obtain ⟨ts, stop, e⟩ := s
  cases ts with
  | cons t ts => exact hf (some t) _ hs he
  | nil =>
    cases e with
    | none => exact hf none _ hs he
    | some x =>
      rw [look_failed]
      exact fun h => he (congrArg some h)

theorem Paced.fail (cause : Cause) : Paced n k (Parser.fail cause : Parser Scan α) := by
  intro s _ _
  simp

theorem Paced.expect (wanted : Lexeme → Bool) (cause : Cause) :
    Paced n 1 (expect wanted cause : Parser Scan Token) := by
  intro s hs he
  obtain ⟨ts, stop, e⟩ := s
  cases ts with
  | cons t ts =>
    by_cases hw : wanted t.lexeme <;> simp [expect_cons, hw]
  | nil =>
    cases e with
    | none => simp [expect_nil]
    | some x =>
      rw [expect_failed]
      exact fun h => he (congrArg some h)

theorem Paced.next : Paced n 0 (next : Parser Scan (Option Token)) := by
  intro s hs he
  obtain ⟨ts, stop, e⟩ := s
  cases ts with
  | cons t ts => exact ⟨Nat.le_succ _, rfl⟩
  | nil =>
    cases e with
    | none => exact ⟨Nat.le_refl _, rfl⟩
    | some x => exact fun h => he (congrArg some h)

theorem Paced.unexpected : Paced n k (unexpected : Parser Scan α) := by
  apply Paced.look
  intro t
  cases t <;> exact .fail _

variable {rounds : Nat}

theorem itemsFrom_paced (stop separator : String) {item : Parser Scan α} (hi : Paced n 1 item)
    (hr : ∀ m, m < n → Paced m 0 (items stop separator item rounds false)) :
    Paced n 0 (itemsFrom stop separator item rounds) := by
  apply Paced.look
  intro t
  split
  · exact .pure _
  · refine (hi.then fun x hn => ?_).free
    exact (hr (n - 1) (by omega)).then fun xs _ => .pure _

theorem items_paced (stop separator : String) {item : Parser Scan α} (hi : Paced n 1 item)
    (hn : n < rounds) (first : Bool) : Paced n 0 (items stop separator item rounds first) := by
  induction rounds generalizing n first with
  | zero => omega
  | succ rounds ih =>
    have hrest (m : Nat) (hm : m < n) : Paced m 0 (items stop separator item rounds false) :=
      ih (hi.fewer (by omega)) (by omega) false
    cases first with
    | true =>
      rw [items_first]
      apply Paced.look
      intro t
      split
      · exact .pure _
      · exact itemsFrom_paced stop separator hi hrest
    | false =>
      rw [items_later]
      apply Paced.look
      intro t
      split
      · exact .pure _
      · refine (Paced.then (.expect _ _) fun _ _ => ?_).free
        exact itemsFrom_paced stop separator (hi.fewer (Nat.sub_le n 1))
          fun m hm => hrest m (by omega)

theorem delimited_paced (start stop separator : String) {item : Parser Scan α}
    (hi : Paced n 1 item) (hn : n < rounds) :
    Paced n 1 (delimited rounds start stop separator item) := by
  refine .then (.expect _ _) fun _ _ => ?_
  refine .then (items_paced stop separator (hi.fewer (Nat.sub_le n 1)) (by omega) true)
    fun xs _ => ?_
  exact (Paced.then (.expect _ _) fun _ _ => .pure xs).free

theorem bindings_paced {operand : Parser Scan Node} (ho : Paced n 1 operand) (hn : n < rounds)
    (left : Node) (least : Int) : Paced n 0 (bindings operand rounds left least) := by
  induction rounds generalizing n left least with
  | zero => omega
  | succ rounds ih =>
    rw [bindings_succ]
    apply Paced.look
    intro t
    cases operatorText? t with
    | none => exact .pure _
    | some op =>
      cases hp : bindingPower? op with
      | none => simpa only [hp] using .fail _
      | some power =>
        simp only [hp]
        split
        · exact .pure _
        · refine Paced.next.after fun _ => (ho.then fun d hle => ?_).free
          have hrest (left : Node) (least : Int) :
              Paced (n - 1) 0 (bindings operand rounds left least) :=
            ih (ho.fewer (Nat.sub_le n 1)) (by omega) left least
          exact (hrest d power).after fun right => hrest _ least

theorem invocation_paced {argument : Parser Scan Node} (ha : Paced n 1 argument)
    (hn : n < rounds) (node : Node) : Paced n 0 (invocation rounds argument node) := by
  rw [invocation_eq]
  apply Paced.look
  intro t
  split
  · exact ((delimited_paced openParen closeParen comma ha hn).then fun _ _ => .pure _).free
  · exact .pure _

theorem parameters_paced (hn : n < rounds) :
    Paced n 1 (parameters rounds : Parser Scan (List String)) := by
  rw [parameters_eq]
  apply Paced.look
  intro t
  split
  · refine (delimited_paced openParen closeParen comma (.expect _ _) hn).then fun params _ => ?_
    unfold declared
    split
    · intro s _ _
      simp
    · exact .pure _
  · exact .fail _

structure Level.Paced (n : Nat) (inner : Level Scan) : Prop where
  operand : Parser.Paced n 1 inner.operand
  expression : Parser.Paced n 1 inner.expression

variable {inner : Level Scan}

theorem Level.Paced.fewer (hi : inner.Paced n) (hm : m ≤ n) : inner.Paced m :=
  ⟨hi.operand.fewer hm, hi.expression.fewer hm⟩

theorem group_paced (hi : inner.Paced n) : Paced n 1 (group inner) := by
  refine .then (.expect _ _) fun _ _ => ?_
  refine ((hi.fewer (Nat.sub_le n 1)).expression.then fun node _ => ?_).free
  exact (Paced.then (.expect _ _) fun _ _ => .pure node).free

theorem block_paced (hi : inner.Paced n) (hn : n < rounds) : Paced n 1 (block rounds inner) :=
  (delimited_paced openBrace closeBrace semicolon hi.expression hn).then fun _ _ => .pure _

theorem name?_paced : Paced n 0 (name? : Parser Scan (Option String)) := by
  rw [name?_eq]
  apply Paced.look
  intro t
  split
  · exact (Paced.then (.expect _ _) fun _ _ => .pure _).free
  · exact .pure _

theorem declaration_paced (hi : inner.Paced n) (hn : n < rounds) :
    Paced n 1 (declaration rounds inner) := by
  rw [declaration_eq]
  refine Paced.next.after fun _ => name?_paced.after fun name => ?_
  refine (parameters_paced hn).then fun params _ => Paced.look fun t => ?_
  split
  · exact ((block_paced (hi.fewer (Nat.sub_le n 1)) (by omega)).then fun _ _ => .pure _).free
  · exact .fail _

theorem signed_paced (hi : inner.Paced n) : Paced n 1 (signed inner) := by
  rw [signed_eq]
  refine .then (.expect _ _) fun sign _ => Paced.look fun t => ?_
  split
  · exact ((hi.fewer (Nat.sub_le n 1)).operand.then fun _ _ => .pure _).free
  · exact .fail _

theorem atom_paced (hi : inner.Paced n) (hn : n < rounds) : Paced n 1 (atom rounds inner) := by
  intro s hs he
  obtain ⟨ts, stop, e⟩ := s
  cases ts with
  | nil =>
    cases e with
    | none => simp [atom, look_nil, unexpected]
    | some x =>
      rw [atom, look_failed]
      exact fun h => he (congrArg some h)
  | cons t ts =>
    rw [atom, look_cons]
    dsimp only
    cases Opening.of t.lexeme with
    | group => exact group_paced hi _ hs he
    | braces => exact block_paced hi hn _ hs he
    | declaration => exact declaration_paced hi hn _ hs he
    | sign => exact signed_paced hi _ hs he
    | truth value => exact ⟨Nat.le_refl _, rfl⟩
    | leaf => exact ⟨Nat.le_refl _, rfl⟩
    | none => exact (Paced.unexpected : Paced n 1 (unexpected : Parser Scan Node)) _ hs he

theorem level_paced (hn : n < rounds) (depth : Nat) :
    (level rounds depth : Level Scan).Paced n := by
  induction depth with
  | zero => exact ⟨.fail _, .fail _⟩
  | succ depth ih =>
    have hcall {m : Nat} (hm : m ≤ n) (node : Node) :
        Paced m 0 (invocation rounds (level rounds depth).expression node) :=
      invocation_paced (ih.fewer hm).expression (by omega) node
    have ho : Paced n 1 (operand rounds (level rounds depth)) :=
      (atom_paced ih hn).then fun node _ => hcall (Nat.sub_le n 1) node
    refine ⟨ho, ho.then fun d _ => ?_⟩
    exact (bindings_paced (ho.fewer (Nat.sub_le n 1)) (by omega) d 0).after fun chain =>
      hcall (Nat.sub_le n 1) chain

theorem statements_paced {statement : Parser Scan Node} (hs : Paced n 1 statement)
    (hn : n < rounds) : Paced n 0 (statements statement rounds) := by
  induction rounds generalizing n with
  | zero => omega
  | succ rounds ih =>
    rw [statements_succ]
    apply Paced.look
    intro t
    split
    · exact .pure _
    · refine (hs.then fun node hle => Paced.look fun t => ?_).free
      have hrest {m : Nat} (hm : m ≤ n - 1) :
          Paced m 0 (do
            let nodes ← statements statement rounds
            return node :: nodes) :=
        (ih (hs.fewer (by omega)) (by omega)).then fun _ _ => .pure _
      split
      · exact hrest (Nat.le_refl _)
      · exact (Paced.then (.expect _ _) fun _ _ => hrest (Nat.sub_le _ 1)).free

theorem statements_not_exhausted {s s' : Scan} (hn : s.tokens.length < rounds)
    (he : s.failure ≠ some .exhausted) (depth : Nat) :
    statements (level rounds depth).expression rounds s ≠ .error .exhausted s' :=
  (statements_paced (level_paced hn depth).expression hn).not_exhausted (Nat.le_refl _) he

theorem statements_rounds {s : Scan} {more : Nat} (hn : s.tokens.length < rounds)
    (hm : rounds ≤ more) (he : s.failure ≠ some .exhausted) (depth : Nat) :
    statements (level rounds depth).expression rounds s =
      statements (level more depth).expression more s := by
  have ha := (Simulation.identity Scan).run (program_lockstep hm depth) (s := s) rfl
  rcases ha.outcomes fun s' => statements_not_exhausted hn he depth with
    ⟨a, s', b, t', hs, ht, hab, hst⟩ | ⟨e, s', f, t', hs, ht, hef, hst⟩
  · rw [hs, ht, hst, Node.eq_of_matchesAll (Node.matchesAll_iff.2 hab)]
  · rw [hs, ht, hst, hef]

end RuleLang.Parser
