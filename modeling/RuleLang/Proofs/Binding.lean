import RuleLang.Proofs.Laziness

/-!
Chains of operands. Reading a chain folds it from the left, with a nested reading for whatever
binds more tightly. What comes out is the tree whose root is the loosest operator, among equals
the last, and whose sides are made in the same way.
-/
namespace RuleLang

open RuleLang.Parser

/-- Looking at the next token twice shows the same token, and a token delivered is used up. -/
class LawfulTokenSource (σ : Type) [TokenSource σ] : Prop where
  peek_again {s s' : σ} {t : Option Token} :
    TokenSource.peek s = .ok t s' → TokenSource.peek s' = .ok t s'
  size_peek {s s' : σ} {t : Option Token} :
    TokenSource.peek s = .ok t s' → TokenSource.size s' ≤ TokenSource.size s
  size_next {s s' : σ} {t : Option Token} :
    TokenSource.next s = .ok t s' →
      TokenSource.size s' + t.toList.length ≤ TokenSource.size s

instance : LawfulTokenSource Scan where
  peek_again {s s' t} h := by
    obtain ⟨_ | ⟨u, ts⟩, stop, _ | e⟩ := s <;> cases h <;> rfl
  size_peek {s s' t} h := by
    obtain ⟨_ | ⟨u, ts⟩, stop, _ | e⟩ := s <;> cases h <;> exact Nat.le_refl _
  size_next {s s' t} h := by
    obtain ⟨_ | ⟨u, ts⟩, stop, _ | e⟩ := s <;> cases h <;> exact Nat.le_refl _

namespace Lexer

theorem readToken_end {c c' : Cursor} (h : readToken c = .ok none c') :
    readToken c' = .ok none c' := by
  have hend := (readToken_none h).1
  have hr := readToken_eq c'
  rw [gap_nil hend] at hr
  simpa only [hend] using hr

theorem length_readToken {c c' : Cursor} {t : Option Token} (h : readToken c = .ok t c') :
    c'.rest.length + t.toList.length ≤ c.rest.length := by
  cases t with
  | none => simp [(readToken_none h).1]
  | some t => exact (readToken_some h).1

end Lexer

instance : LawfulTokenSource Lexer where
  peek_again {s s' t} h := by
    change Lexer.peek s = .ok t s' at h
    obtain ⟨c, _ | u⟩ := s
    · rw [Lexer.peek_eq] at h
      cases hr : Lexer.readToken c with
      | error e c' => simp [hr] at h
      | ok u c' =>
        simp only [hr] at h
        obtain ⟨rfl, rfl⟩ := EStateM.Result.ok.inj h
        cases u with
        | none =>
          change Lexer.peek ⟨c', none⟩ = _
          rw [Lexer.peek_eq, Lexer.readToken_end hr]
        | some u => rfl
    · cases h
      rfl
  size_peek {s s' t} h := by
    change Lexer.peek s = .ok t s' at h
    obtain ⟨c, _ | u⟩ := s
    · rw [Lexer.peek_eq] at h
      cases hr : Lexer.readToken c with
      | error e c' => simp [hr] at h
      | ok u c' =>
        simp only [hr] at h
        obtain ⟨rfl, rfl⟩ := EStateM.Result.ok.inj h
        exact Lexer.length_readToken hr
    · cases h
      exact Nat.le_refl _
  size_next {s s' t} h := by
    change Lexer.next s = .ok t s' at h
    obtain ⟨c, _ | u⟩ := s
    · rw [Lexer.next_eq] at h
      cases hr : Lexer.readToken c with
      | error e c' => simp [hr] at h
      | ok u c' =>
        simp only [hr] at h
        obtain ⟨rfl, rfl⟩ := EStateM.Result.ok.inj h
        exact Lexer.length_readToken hr
    · cases h
      exact Nat.le_refl _

def Simulation.bounded (σ : Type) [TokenSource σ] [LawfulTokenSource σ] (n : Nat) :
    Simulation (.within fun _ => True) σ σ where
  state _ s t := s = t ∧ TokenSource.size s ≤ n
  stopped e f _ _ := e = f
  forget h := h
  peek {_ s t} h := by
    obtain ⟨rfl, hn⟩ := h
    cases hp : TokenSource.peek s with
    | ok t s' =>
      exact ⟨Correspondence.within_rel fun _ _ => trivial, rfl,
        Nat.le_trans (LawfulTokenSource.size_peek hp) hn⟩
    | error e s' => exact .inr rfl
  next {_ s t} h := by
    obtain ⟨rfl, hn⟩ := h
    cases hp : TokenSource.next s with
    | ok t s' =>
      have hs := LawfulTokenSource.size_next hp
      exact ⟨Correspondence.within_rel fun _ _ => trivial, rfl, by omega⟩
    | error e s' => exact .inr rfl
  fail h hxy _ := by
    obtain ⟨rfl, _⟩ := h
    rw [Cause.eq_of_matches hxy]
  refuse _ hxy hab := by
    obtain ⟨rfl, _⟩ := hxy
    cases hab
    rfl
  tooDeep h := by
    obtain ⟨rfl, _⟩ := h
    rfl

namespace Parser

open Vocabulary

variable {σ : Type} [TokenSource σ] [LawfulTokenSource σ]

theorem size_operand {rounds depth : Nat} {s s' : σ} {d : Node}
    (h : (level rounds depth).operand s = .ok d s') : TokenSource.size s' ≤ TokenSource.size s := by
  have hl := (level_lockstep (c := .within fun _ => True) (σ := σ) (τ := σ)
    (Nat.le_refl rounds) depth).operand
  have ha := (Simulation.bounded σ (TokenSource.size s)).run hl (s := s) ⟨rfl, Nat.le_refl _⟩
  rw [h] at ha
  exact ha.2.2

def power (op : String) : Int := (bindingPower? op).getD 0

/-- The tree of an operand and the pairs of an operator and an operand that follow it. -/
inductive Grouping : Node → List (String × Node) → Node → Prop
  | operand (d : Node) : Grouping d [] d
  | root {d e left right : Node} {op : String} {before after : List (String × Node)} :
    (∀ p ∈ before, power op ≤ power p.1) → (∀ p ∈ after, power op < power p.1) →
    Grouping d before left → Grouping e after right →
    Grouping d (before ++ (op, e) :: after) (Node.joined op left right)

/-- Two ways to single out the last of the loosest operators are the same. -/
theorem loosest_unique {xs ys xs' ys' : List (String × Node)} {p p' : String × Node}
    (h : xs ++ p :: ys = xs' ++ p' :: ys')
    (hx : ∀ q ∈ xs, power p.1 ≤ power q.1) (hy : ∀ q ∈ ys, power p.1 < power q.1)
    (hx' : ∀ q ∈ xs', power p'.1 ≤ power q.1) (hy' : ∀ q ∈ ys', power p'.1 < power q.1) :
    xs = xs' ∧ p = p' ∧ ys = ys' := by
  rcases List.append_eq_append_iff.1 h with ⟨zs, hxs, hys⟩ | ⟨zs, hxs, hys⟩
  · cases zs with
    | nil =>
      simp only [List.append_nil] at hxs
      simp only [List.nil_append, List.cons.injEq] at hys
      exact ⟨hxs.symm, hys.1, hys.2⟩
    | cons q zs =>
      simp only [List.cons_append, List.cons.injEq] at hys
      have hlt := hy p' (by simp [hys.2])
      have hle := hx' p (by simp [hxs, hys.1])
      omega
  · cases zs with
    | nil =>
      simp only [List.append_nil] at hxs
      simp only [List.nil_append, List.cons.injEq] at hys
      exact ⟨hxs, hys.1.symm, hys.2.symm⟩
    | cons q zs =>
      simp only [List.cons_append, List.cons.injEq] at hys
      have hlt := hy' p (by simp [hys.2])
      have hle := hx p' (by simp [hxs, hys.1])
      omega

namespace Grouping

theorem unique {d n n' : Node} {pairs : List (String × Node)} (h : Grouping d pairs n)
    (h' : Grouping d pairs n') : n = n' := by
  induction h generalizing n' with
  | operand d =>
    generalize hp : ([] : List (String × Node)) = pairs at h'
    cases h' with
    | operand d => rfl
    | root => simp at hp
  | @root d e left right op before after hb ha hl hr ihl ihr =>
    generalize hp : before ++ (op, e) :: after = pairs at h'
    cases h' with
    | operand d => simp at hp
    | @root _ e' left' right' op' before' after' hb' ha' hl' hr' =>
      obtain ⟨rfl, hop, rfl⟩ := loosest_unique hp hb ha hb' ha'
      obtain ⟨rfl, rfl⟩ := Prod.mk.inj hop
      rw [ihl hl', ihr hr']

theorem fold {op : String} {d e right joined n : Node} {tighter pairs : List (String × Node)}
    (h : Grouping joined pairs n) (hj : joined = Node.joined op d right)
    (hr : Grouping e tighter right) (ht : ∀ p ∈ tighter, power op < power p.1)
    (hp : ∀ p ∈ pairs.head?, power p.1 ≤ power op) :
    Grouping d ((op, e) :: tighter ++ pairs) n := by
  induction h with
  | operand joined =>
    subst hj
    rw [List.append_nil]
    exact @root d e d right op [] tighter (by simp) ht (.operand d) hr
  | @root joined e' left right' op' before after hb ha hl hr' ihl ihr =>
    have hhead : ∀ p ∈ before.head?, power p.1 ≤ power op := by
      cases before with
      | nil => simp
      | cons q before => exact hp
    have hop : power op' ≤ power op := by
      cases before with
      | nil => exact hp (op', e') rfl
      | cons q before =>
        have hq := hp q rfl
        have hle := hb q (List.mem_cons_self ..)
        omega
    have hleft := ihl hj hhead
    rw [← List.append_assoc]
    refine .root ?_ ha hleft hr'
    intro p hmem
    simp only [List.cons_append, List.mem_cons, List.mem_append] at hmem
    rcases hmem with rfl | hmem | hmem
    · exact hop
    · have hlt := ht p hmem
      omega
    · exact hb p hmem

end Grouping

/-- Reading the pairs, each an operator and an operand behind it, and then looking at the token
behind them. -/
inductive Links (operand : Parser σ Node) : σ → List (String × Node) → σ → Prop
  | stop {s last : σ} {t : Option Token} : peek s = .ok t last → Links operand s [] last
  | link {s s₁ s₂ s₃ last : σ} {t : Token} {op : String} {d : Node}
    {pairs : List (String × Node)} :
    peek s = .ok (some t) s₁ → t.lexeme = .operator op → next s₁ = .ok (some t) s₂ →
    operand s₂ = .ok d s₃ → Links operand s₃ pairs last →
    Links operand s ((op, d) :: pairs) last

namespace Links

variable {operand : Parser σ Node} {s m last : σ} {pairs : List (String × Node)}

omit [LawfulTokenSource σ] in
theorem congr_peek {s' : σ} (h : Links operand s pairs last) (hp : peek s = peek s') :
    Links operand s' pairs last := by
  cases h with
  | stop ht => exact .stop (hp ▸ ht)
  | link ht hop hn hd hl => exact .link (hp ▸ ht) hop hn hd hl

theorem peek_eq {t : Option Token} (h : peek s = .ok t m) : peek s = peek m :=
  h.trans (LawfulTokenSource.peek_again h).symm

theorem peek_last (h : Links operand s pairs last) : ∃ t, peek last = .ok t last := by
  induction h with
  | stop ht => exact ⟨_, LawfulTokenSource.peek_again ht⟩
  | link _ _ _ _ _ ih => exact ih

theorem append {more : List (String × Node)} (h : Links operand s pairs m)
    (h' : Links operand m more last) : Links operand s (pairs ++ more) last := by
  induction h with
  | stop ht => exact h'.congr_peek (peek_eq ht).symm
  | link ht hop hn hd hl ih => exact .link ht hop hn hd (ih h')

theorem length_le (ho : ∀ s s' d, operand s = .ok d s' →
      TokenSource.size s' ≤ TokenSource.size s) (h : Links operand s pairs last) :
    pairs.length ≤ TokenSource.size s := by
  induction h with
  | stop _ => exact Nat.zero_le _
  | link ht hop hn hd hl ih =>
    have hpeek := LawfulTokenSource.size_peek ht
    have hnext := LawfulTokenSource.size_next hn
    have hoperand := ho _ _ _ hd
    simp only [Option.toList_some, List.length_cons, List.length_nil] at hnext ⊢
    omega

end Links

/-- The pairs up to the first that does not bind more tightly than `least`, and the others. -/
def binding (least : Int) (pairs : List (String × Node)) : List (String × Node) :=
  pairs.takeWhile fun p => least < power p.1

def unbound (least : Int) (pairs : List (String × Node)) : List (String × Node) :=
  pairs.dropWhile fun p => least < power p.1

theorem binding_append_unbound (least : Int) (pairs : List (String × Node)) :
    binding least pairs ++ unbound least pairs = pairs := List.takeWhile_append_dropWhile

theorem binding_lt {least : Int} {pairs : List (String × Node)} {p : String × Node}
    (h : p ∈ binding least pairs) : least < power p.1 := by
  have hall := List.all_takeWhile (p := fun p : String × Node => least < power p.1) (l := pairs)
  simpa using List.all_eq_true.1 hall p h

theorem unbound_head {least : Int} {pairs : List (String × Node)} :
    ∀ p ∈ (unbound least pairs).head?, power p.1 ≤ least := by
  intro p hp
  have hn := List.head?_dropWhile_not (fun p : String × Node => least < power p.1) pairs
  rw [show (pairs.dropWhile _).head? = some p from hp] at hn
  simpa using hn

theorem binding_split {least n : Int} (h : least < n) (pairs : List (String × Node)) :
    binding least pairs = binding n pairs ++ binding least (unbound n pairs) := by
  induction pairs with
  | nil => rfl
  | cons p pairs ih =>
    by_cases hp : n < power p.1
    · have hl : least < power p.1 := by omega
      simpa [binding, unbound, hp, hl] using ih
    · simp [binding, unbound, hp]

theorem unbound_split {least n : Int} (h : least < n) (pairs : List (String × Node)) :
    unbound least pairs = unbound least (unbound n pairs) := by
  induction pairs with
  | nil => rfl
  | cons p pairs ih =>
    by_cases hp : n < power p.1
    · have hl : least < power p.1 := by omega
      simpa [unbound, hp, hl] using ih
    · simp [unbound, hp]

theorem binding_head {least n : Int} (pairs : List (String × Node)) :
    ∀ p ∈ (binding least (unbound n pairs)).head?, power p.1 ≤ n := by
  have hhead := @unbound_head n pairs
  cases hu : unbound n pairs with
  | nil => simp [binding]
  | cons q qs =>
    have hq : power q.1 ≤ n := hhead q (by simp [hu])
    intro p hp
    by_cases hl : least < power q.1
    · simp only [binding, List.takeWhile_cons, hl, decide_true, if_true, List.head?_cons,
        Option.mem_some_iff] at hp
      rwa [← hp]
    · simp [binding, hl] at hp

theorem unbound_nil {least : Int} {pairs : List (String × Node)}
    (h : ∀ p ∈ pairs, least < power p.1) : unbound least pairs = [] := by
  cases hu : unbound least pairs with
  | nil => rfl
  | cons q qs =>
    have hq := unbound_head q (by rw [hu]; rfl)
    have hmem : q ∈ unbound least pairs := by simp [hu]
    have hlt := h q ((List.dropWhile_sublist _).mem hmem)
    omega

theorem binding_all {least : Int} {pairs : List (String × Node)}
    (h : ∀ p ∈ pairs, least < power p.1) : binding least pairs = pairs := by
  have hall := binding_append_unbound least pairs
  rwa [unbound_nil h, List.append_nil] at hall

theorem bindings_links {operand : Parser σ Node} {rounds : Nat} {s last : σ}
    {pairs : List (String × Node)} {t : Option Token} (hl : Links operand s pairs last)
    (hr : pairs.length < rounds) (hk : ∀ p ∈ pairs, (bindingPower? p.1).isSome)
    (hp : peek last = .ok t last) (ht : operatorText? t = none) (left : Node) (least : Int) :
    ∃ mid n, bindings operand rounds left least s = .ok n mid ∧
      Links operand s (binding least pairs) mid ∧ Links operand mid (unbound least pairs) last ∧
      Grouping left (binding least pairs) n := by
  induction rounds generalizing s pairs left least with
  | zero => omega
  | succ rounds ih =>
    rw [bindings_succ]
    cases hl with
    | @stop s last u hu =>
      obtain ⟨rfl, _⟩ := EStateM.Result.ok.inj ((LawfulTokenSource.peek_again hu).symm.trans hp)
      refine ⟨last, left, ?_, .stop hu, .stop hp, .operand left⟩
      rw [bind_of_ok hu, ht]
      rfl
    | @link s s₁ s₂ s₃ last u op d pairs hu hop hn hd hl =>
      have hpower : bindingPower? op = some (power op) := by
        obtain ⟨n, hn⟩ := Option.isSome_iff_exists.1 (hk _ (List.mem_cons_self ..))
        simp [power, hn]
      have htext : operatorText? (some u) = some op := operatorText?_operator hop
      rw [bind_of_ok hu]
      simp only [htext, hpower]
      by_cases hle : power op ≤ least
      · have hlt : ¬ least < power op := by omega
        refine ⟨s₁, left, by simp [hle], ?_, ?_, ?_⟩ <;>
          simp only [binding, unbound, hlt, decide_false, List.takeWhile_cons, List.dropWhile_cons]
        · exact .stop hu
        · exact .link (LawfulTokenSource.peek_again hu) hop hn hd hl
        · exact .operand left
      · have hlt : least < power op := by omega
        have hk' : ∀ p ∈ pairs, (bindingPower? p.1).isSome := fun p hm =>
          hk p (List.mem_cons_of_mem _ hm)
        have hlen : pairs.length < rounds := Nat.lt_of_succ_lt_succ hr
        -- a nested reading takes the pairs that bind more tightly, the next round the others
        obtain ⟨mid, right, hright, hused, hrest, hgroup⟩ := ih hl hlen hk' d (power op)
        have hfewer : (unbound (power op) pairs).length < rounds :=
          Nat.lt_of_le_of_lt (List.dropWhile_sublist _).length_le hlen
        obtain ⟨mid', n, hn', hused', hrest', hgroup'⟩ := ih hrest hfewer
          (fun p hm => hk' p ((List.dropWhile_sublist _).mem hm)) (Node.joined op left right) least
        have hfirst : binding least ((op, d) :: pairs) =
            (op, d) :: (binding (power op) pairs ++ binding least (unbound (power op) pairs)) := by
          rw [← binding_split hlt]
          simp [binding, hlt]
        have hothers : unbound least ((op, d) :: pairs) =
            unbound least (unbound (power op) pairs) := by
          rw [← unbound_split hlt]
          simp [unbound, hlt]
        rw [hfirst, hothers]
        refine ⟨mid', n, ?_, .link hu hop hn hd (hused.append hused'), hrest', ?_⟩
        · rw [if_neg hle, bind_of_ok hn, bind_of_ok hd, bind_of_ok hright, hn']
        · exact hgroup'.fold rfl hgroup (fun p hm => binding_lt hm) (binding_head pairs)

end Parser

end RuleLang
