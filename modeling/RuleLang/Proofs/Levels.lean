import RuleLang.Proofs.Continuation

/-!
Reading level by level. What the readers of a level read is a relation of its own, in which
constructs nest no more deeply than there are levels. Given rounds enough the readers answer
exactly that, so a program is read within a limit if and only if it is read by so many levels.
What one level reads is read by more, and alike whatever stands behind it, as far as it can see.
-/
namespace RuleLang.Parser

open Vocabulary

variable {α : Type}

/-- What is read inside at most so many constructs. -/
def readings : Nat → Readings
  | 0 => ⟨fun _ _ _ => False, fun _ _ _ => False⟩
  | depth + 1 =>
    let inner := readings depth
    ⟨inner.Operand, inner.Expression inner.Operand⟩

structure Readings.Le (I J : Readings) : Prop where
  operand {n : Node} {ts rest : List Token} : I.operand n ts rest → J.operand n ts rest
  expression {n : Node} {ts rest : List Token} : I.expression n ts rest → J.expression n ts rest

section Mono

variable {I J : Readings} {reading reading' : Node → List Token → List Token → Prop}
  {callee left n : Node} {least : Int} {ts rest : List Token}

theorem Readings.Invocation.mono (h : I.Invocation callee n ts rest) (hle : I.Le J) :
    J.Invocation callee n ts rest := by
  cases h with
  | uncalled hm => exact .uncalled hm
  | call ho hc hl => exact .call ho hc (hl.mono fun _ _ _ => hle.expression)

theorem Readings.Atom.mono (h : I.Atom n ts rest) (hle : I.Le J) : J.Atom n ts rest := by
  cases h with
  | group ho hc hn => exact .group ho hc (hle.expression hn)
  | block ho hc hl => exact .block ho hc (hl.mono fun _ _ _ => hle.expression)
  | rule hr hname ho hc hps hf hb hd hl =>
    exact .rule hr hname ho hc hps hf hb hd (hl.mono fun _ _ _ => hle.expression)
  | sign hs ht hn => exact .sign hs ht (hle.operand hn)
  | truth ht => exact .truth ht
  | leaf ht => exact .leaf ht

theorem Readings.Operand.mono (h : I.Operand n ts rest) (hle : I.Le J) : J.Operand n ts rest := by
  obtain ⟨a, mid, ha, hn⟩ := h
  exact ⟨a, mid, ha.mono hle, hn.mono hle⟩

variable (ho : ∀ {n ts rest}, reading n ts rest → reading' n ts rest)
include ho

theorem Bindings.mono (h : Bindings reading left least n ts rest) :
    Bindings reading' left least n ts rest := by
  induction h with
  | bound hs => exact .bound hs
  | pair ht hp hlt hd _ _ ihright ihn => exact .pair ht hp hlt (ho hd) ihright ihn

theorem Chain.mono (h : Chain reading least n ts rest) : Chain reading' least n ts rest := by
  obtain ⟨d, mid, hd, hn⟩ := h
  exact ⟨d, mid, ho hd, hn.mono ho⟩

theorem Readings.Expression.mono (h : I.Expression reading n ts rest) (hle : I.Le J) :
    J.Expression reading' n ts rest := by
  obtain ⟨chain, mid, hc, hn⟩ := h
  exact ⟨chain, mid, hc.mono ho, hn.mono hle⟩

theorem Statements.mono {ns : List Node} (h : Statements reading ns ts) :
    Statements reading' ns ts := by
  induction h with
  | finish => exact .finish
  | last hn => exact .last (ho hn)
  | statement hn hs _ ih => exact .statement (ho hn) hs ih

end Mono

theorem readings_le_succ (depth : Nat) : (readings depth).Le (readings (depth + 1)) := by
  induction depth with
  | zero => exact ⟨False.elim, False.elim⟩
  | succ depth ih => exact ⟨fun h => h.mono ih, fun h => h.mono (fun h => h.mono ih) ih⟩

theorem readings_le_add (more depth : Nat) : (readings depth).Le (readings (more + depth)) := by
  induction more with
  | zero =>
    rw [Nat.zero_add]
    exact ⟨id, id⟩
  | succ more ih =>
    rw [Nat.succ_add]
    have hstep := readings_le_succ (more + depth)
    exact ⟨fun h => hstep.operand (ih.operand h), fun h => hstep.expression (ih.expression h)⟩

theorem readings_le_all (depth : Nat) : (readings depth).Le .all := by
  induction depth with
  | zero => exact ⟨False.elim, False.elim⟩
  | succ depth ih =>
    have operand {n : Node} {ts rest : List Token} (h : (readings depth).Operand n ts rest) :
        Readings.all.operand n ts rest := by
      obtain ⟨a, mid, ha, hn⟩ := h
      exact .operand (ha.mono ih).reads (hn.mono ih).reads
    refine ⟨operand, fun h => ?_⟩
    obtain ⟨chain, m₂, ⟨d, m₁, hd, hc⟩, hn⟩ := h
    exact .expression (operand hd) (hc.mono operand).reads (hn.mono ih).reads

/-- On a finished list the reader returns the answer and leaves the rest. -/
def Answers (p : Parser Scan α) (ts : List Token) (a : α) (rest : List Token) : Prop :=
  ∀ stop, p ⟨ts, stop, none⟩ = .ok a ⟨rest, stop, none⟩

namespace Answers

variable {p : Parser Scan α} {ts rest : List Token} {a : α}

theorem returns (h : Answers p ts a rest) (depth : Nat) : Returns depth p ts a rest :=
  fun stop => .inl (h stop)

theorem of_returns (h : Returns (ts.length + 1) p ts a rest) : Answers p ts a rest :=
  fun stop => (h stop).resolve_right fun ⟨_, _, _, _, hle⟩ => Nat.not_succ_le_self _ hle

theorem bind {β : Type} {f : α → Parser Scan β} {mid : List Token} {b : β}
    (hp : Answers p ts a mid) (hf : Answers (f a) mid b rest) : Answers (p >>= f) ts b rest := by
  intro stop
  rw [bind_of_ok (hp stop)]
  exact hf stop

end Answers

structure Level.Answers (rounds : Nat) (inner : Level Scan) (readings : Readings) : Prop where
  operand {n : Node} {ts rest : List Token} : readings.operand n ts rest → ts.length < rounds →
    Parser.Answers inner.operand ts n rest
  expression {n : Node} {ts rest : List Token} : readings.expression n ts rest →
    ts.length < rounds → Parser.Answers inner.expression ts n rest

section Productions

variable {inner : Level Scan} {readings : Readings} {rounds : Nat} {callee left n : Node}
  {ts rest : List Token} (hi : inner.Answers rounds readings) (hle : readings.Le .all)

include hle in
theorem Readings.Le.length {x : Node} {us mid : List Token} (h : readings.expression x us mid) :
    mid.length < us.length := expression_length (hle.expression h)

include hi hle

theorem invocation_answers (h : readings.Invocation callee n ts rest) (hr : ts.length < rounds) :
    Answers (invocation rounds inner.expression callee) ts n rest := by
  refine .of_returns ?_
  cases h with
  | uncalled hm => exact uncalled_returns hm callee
  | call ho hc hl =>
    rw [List.length_cons] at hr ⊢
    exact call_returns ho hc hl (by omega) (fun _ _ _ => hle.length)
      (fun _ _ _ hx hx' => (hi.expression hx (by omega)).returns _) callee

theorem atom_answers (h : readings.Atom n ts rest) (hr : ts.length < rounds) :
    Answers (atom rounds inner) ts n rest := by
  refine .of_returns ?_
  cases h with
  | group ho hc hn =>
    rw [List.length_cons] at hr ⊢
    exact group_returns ho hc ((hi.expression hn (by omega)).returns _)
      (Nat.le_of_lt (hle.length hn))
  | block ho hc hl =>
    rw [List.length_cons] at hr ⊢
    exact braces_returns ho hc hl (by omega) (fun _ _ _ => hle.length)
      fun _ _ _ hx hx' => (hi.expression hx (by omega)).returns _
  | rule hk hname ho hc hps hf hb hd hl =>
    rw [List.length_cons] at hr ⊢
    exact rule_returns hk hname ho hc hps hf hb hd hl (by omega) (fun _ _ _ => hle.length)
      fun _ _ _ hx hx' => (hi.expression hx (by omega)).returns _
  | sign hs ht hn =>
    rw [List.length_cons] at hr ⊢
    exact signed_returns hs ht ((hi.operand hn (by omega)).returns _)
  | truth ht => exact truth_returns ht
  | leaf ht => exact leaf_returns ht

theorem operand_answers (h : readings.Operand n ts rest) (hr : ts.length < rounds) :
    Answers (operand rounds inner) ts n rest := by
  obtain ⟨a, mid, ha, hn⟩ := h
  have hmid := (ha.mono hle).reads.length_le
  exact (atom_answers hi hle ha hr).bind (invocation_answers hi hle hn (by omega))

end Productions

section Chains

variable {operand : Parser Scan Node} {reading : Node → List Token → List Token → Prop}
  {rounds : Nat} {left n : Node} {least : Int} {ts rest : List Token}
  (ho : ∀ {n ts rest}, reading n ts rest → ts.length < rounds → Answers operand ts n rest)
  (hle : ∀ {n ts rest}, reading n ts rest → Reads (.operand n) ts rest)
include ho hle

theorem bindings_answers (h : Bindings reading left least n ts rest) (hr : ts.length < rounds)
    {more : Nat} (hmore : ts.length < more) :
    Answers (bindings operand more left least) ts n rest := by
  induction h generalizing more with
  | @bound left least ts hs =>
    obtain ⟨more, rfl⟩ : ∃ n, more = n + 1 := ⟨more - 1, by omega⟩
    exact .of_returns (bindings_bound_returns hs left more)
  | @pair t op power least left d right n ts m₁ m₂ rest ht hp hlt hd hright hn ihright ihn =>
    rw [List.length_cons] at hr hmore
    have hm₁ := (hle hd).length_le
    have hm₂ := (hright.mono hle).reads.length_le
    simp only [Phrase.size] at hm₁ hm₂
    obtain ⟨more, rfl⟩ : ∃ n, more = n + 1 := ⟨more - 1, by omega⟩
    have hfirst := @ihright (by omega) more (by omega)
    have hrest := @ihn (by omega) more (by omega)
    exact .of_returns (bindings_pair_returns ht hp hlt ((ho hd (by omega)).returns _) (by omega)
      (hfirst.returns _) (by omega) (hrest.returns _))

theorem chain_answers (h : Chain reading least n ts rest) (hr : ts.length < rounds) :
    Answers (do bindings operand rounds (← operand) least) ts n rest := by
  obtain ⟨d, mid, hd, hn⟩ := h
  have hmid := (hle hd).length_le
  simp only [Phrase.size] at hmid
  exact (ho hd hr).bind (bindings_answers ho hle hn (by omega) (by omega))

theorem expression_answers {inner : Level Scan} {readings : Readings}
    (hi : inner.Answers rounds readings) (hall : readings.Le .all)
    (h : readings.Expression reading n ts rest) (hr : ts.length < rounds) :
    Answers (expression rounds inner operand) ts n rest := by
  obtain ⟨chain, m₂, ⟨d, m₁, hd, hc⟩, hn⟩ := h
  have hm₁ := (hle hd).length_le
  have hm₂ := (hc.mono hle).reads.length_le
  simp only [Phrase.size] at hm₁ hm₂
  exact (ho hd hr).bind ((bindings_answers ho hle hc (by omega) (by omega)).bind
    (invocation_answers hi hall hn (by omega)))

end Chains

theorem level_keeps (rounds depth : Nat) : (level rounds depth).Keeps (readings depth) := by
  induction depth with
  | zero => exact ⟨fun _ => .fail _, fun _ => .fail _⟩
  | succ depth ih => exact ⟨operand_keeps ih, expression_keeps ih (operand_keeps ih)⟩

theorem level_answers (rounds depth : Nat) :
    (level rounds depth).Answers rounds (readings depth) := by
  induction depth with
  | zero => exact ⟨False.elim, False.elim⟩
  | succ depth ih =>
    have hle := readings_le_all depth
    refine ⟨operand_answers ih hle, fun h => ?_⟩
    exact expression_answers (operand_answers ih hle) (readings_le_all (depth + 1)).operand ih hle h

theorem statements_answers {statement : Parser Scan Node}
    {reading : Node → List Token → List Token → Prop} {rounds : Nat}
    (hs : ∀ {n ts rest}, reading n ts rest → ts.length < rounds → Answers statement ts n rest)
    (hl : ∀ {n ts rest}, reading n ts rest → rest.length < ts.length) {ns : List Node}
    {ts : List Token} (h : Statements reading ns ts) (hr : ts.length < rounds) {left : Nat}
    (hleft : ts.length < left) : Answers (statements statement left) ts ns [] := by
  induction h generalizing left with
  | finish => exact .of_returns (statements_nil_returns hleft)
  | last hn =>
    have hlt := hl hn
    exact .of_returns (statements_last_returns ((hs hn hr).returns _) hlt
      (Nat.lt_of_le_of_lt hlt hleft))
  | @statement n ns s ts rest hn hsemi _ ih =>
    have hlt : rest.length + 1 < ts.length := hl hn
    obtain ⟨left, rfl⟩ : ∃ n, left = n + 1 := ⟨left - 1, by omega⟩
    have hrest := ih (by omega) (by omega : rest.length < left)
    exact .of_returns (statements_more_returns hsemi ((hs hn hr).returns _) hlt (hrest.returns _))

theorem program_ok_iff {limit : Nat} {ts : List Token} {stop : Position} {ns : List Node}
    {s : Scan} : program limit (Scan.ofTokens ts stop) = .ok ns s ↔
      Statements (readings limit).expression ns ts ∧ s = Scan.ofTokens [] stop := by
  have hall := readings_le_all limit
  constructor
  · intro h
    obtain ⟨rest, rfl, rfl, hns⟩ :=
      statements_keeps (level_keeps _ limit).expression _ ts stop ns s h
    exact ⟨hns, rfl⟩
  · rintro ⟨hns, rfl⟩
    exact statements_answers (level_answers _ limit).expression hall.length hns
      (Nat.lt_succ_self _) (Nat.lt_succ_self _) stop

theorem Persists.reread {p : Parser Scan Node} {takes : Bool}
    {reading : Node → List Token → List Token → Prop} {n : Node} {ts rest : List Token}
    (hp : Persists takes p) (hk : ∀ ts, Yields p ts fun n rest => reading n ts rest)
    (h : Answers p ts n rest) : ∃ used, ts = used ++ rest ∧
      ∀ rest', rest' ≠ [] → SameView rest rest' → reading n (used ++ rest') rest' := by
  obtain ⟨used, -, hscan, hother⟩ := hp _ ⟨ts, .start, none⟩ n _ rfl rfl (h .start)
  refine ⟨used, congrArg Scan.tokens hscan, fun rest' hne hv => ?_⟩
  obtain ⟨left, heq, hn⟩ := hk (used ++ rest') .start n _ (hother ⟨rest', .start, none⟩ hv hne)
  obtain rfl : rest' = left := congrArg Scan.tokens heq
  exact hn

end RuleLang.Parser
