import RuleLang.Proofs.Binding
import RuleLang.Proofs.Continuation
import RuleLang.Proofs.Returning

/-!
Where argument lists attach. Of the lists behind an operand the first goes to its atom and, if the
atom has a sign, a second one to the signed operand. One list more ends the chain and goes to the
tree of the whole chain; whatever follows that list is left.
-/
namespace RuleLang.Parser

open Vocabulary

inductive Lists : List (List Node) → List Token → List Token → Prop
  | none (ts : List Token) : Lists [] ts ts
  | more {o c : Token} {args : List Node} {lists : List (List Node)} {ts mid rest : List Token} :
    o.lexeme = .punctuation openParen → c.lexeme = .punctuation closeParen →
    Listed Readings.all.expression closeParen comma true args ts (c :: mid) →
    Lists lists mid rest → Lists (args :: lists) (o :: ts) rest

/-- A call of the node if there is a list for it. -/
def called (callee : Node) : Option (List Node) → Node
  | none => callee
  | some args => .call callee args

/-- An operand as it is written: an atom, perhaps with a sign before it, and lists behind it. -/
structure Written where
  sign : Option Token
  atom : Node
  lists : List (List Node)

namespace Written

/-- How many lists the operand can have for itself. -/
def room (w : Written) : Nat := if w.sign.isSome then 2 else 1

def node (w : Written) : Node :=
  match w.sign with
  | none => called w.atom w.lists[0]?
  | some sign => called (applySign sign (called w.atom w.lists[0]?)) w.lists[1]?

inductive At : Written → List Token → List Token → Prop
  | unsigned {atom : Node} {lists : List (List Node)} {ts mid behind : List Token} :
    (∀ t ∈ ts.head?, isOperatorAmong signOperators t.lexeme = false) →
    Reads (.atom atom) ts mid → Lists lists mid behind → At ⟨none, atom, lists⟩ ts behind
  | signed {sign : Token} {atom : Node} {lists : List (List Node)} {ts mid behind : List Token} :
    isOperatorAmong signOperators sign.lexeme → ts.head?.any (takesSign ·.lexeme) →
    Reads (.atom atom) ts mid → Lists lists mid behind →
    At ⟨some sign, atom, lists⟩ (sign :: ts) behind

/-- The operand has as many lists as it has room for, or fewer and no list follows. -/
def Filled (w : Written) (rest : List Token) : Prop :=
  w.lists.length ≤ w.room ∧ (w.lists.length < w.room → isMark openParen rest.head? = false)

end Written

/-- A chain of operands. Each but the last has no more lists than it has room for and an operator
behind them. The last may have one more; if it has not, nothing behind it goes on with the
expression. -/
inductive Strung : Written → List (String × Written) → List Token → List Token → Prop
  | last {w : Written} {ts rest : List Token} : w.At ts rest → w.lists.length ≤ w.room + 1 →
    (w.lists.length ≤ w.room →
      isMark openParen rest.head? = false ∧ operatorText? rest.head? = none) →
    Strung w [] ts rest
  | more {w v : Written} {op : String} {t : Token} {pairs : List (String × Written)}
    {ts us rest : List Token} : w.At ts (t :: us) → w.lists.length ≤ w.room →
    t.lexeme = .operator op → (bindingPower? op).isSome → Strung v pairs us rest →
    Strung w ((op, v) :: pairs) ts rest

def lastOperand : Written → List (String × Written) → Written
  | w, [] => w
  | _, (_, v) :: pairs => lastOperand v pairs

def operandNodes (pairs : List (String × Written)) : List (String × Node) :=
  pairs.map fun p => (p.1, p.2.node)

section Written

variable {w : Written} {lists : List (List Node)} {pairs : List (String × Written)}
  {ts behind : List Token} {rounds depth : Nat}

theorem Lists.first (h : Lists lists ts behind)
    (hend : lists = [] → isMark openParen behind.head? = false) :
    ∃ rest, Lists (lists.drop 1) rest behind ∧
      ∀ callee, Reads (.invocation callee (called callee lists[0]?)) ts rest := by
  cases h with
  | none => exact ⟨_, .none _, fun callee => .uncalled (hend rfl)⟩
  | more ho hc hl hrest => exact ⟨_, hrest, fun callee => .call (fun _ _ _ h => h) ho hc hl⟩

theorem Written.At.reads_room (h : w.At ts behind)
    (hend : w.lists.length < w.room → isMark openParen behind.head? = false) :
    ∃ rest, Lists (w.lists.drop w.room) rest behind ∧ Reads (.operand w.node) ts rest := by
  cases h with
  | @unsigned atom lists ts mid behind _ ha hl =>
    have hfirst : lists = [] → isMark openParen behind.head? = false := by
      rintro rfl
      exact hend Nat.one_pos
    obtain ⟨rest, hrest, hcall⟩ := hl.first hfirst
    exact ⟨rest, hrest, .operand ha (hcall _)⟩
  | @signed sign atom lists ts mid behind hs ht ha hl =>
    have hsecond : lists.drop 1 = [] → isMark openParen behind.head? = false := by
      intro h
      have hlength := List.drop_eq_nil_iff.1 h
      exact hend (Nat.lt_succ_of_le hlength)
    have hfirst : lists = [] → isMark openParen behind.head? = false := by
      rintro rfl
      exact hsecond rfl
    obtain ⟨mid, hmid, hcall⟩ := hl.first hfirst
    obtain ⟨rest, hrest, hcall'⟩ := hmid.first hsecond
    rw [List.drop_drop] at hrest
    have hsigned := hcall' (applySign sign (called atom lists[0]?))
    rw [List.getElem?_drop] at hsigned
    exact ⟨rest, hrest, .operand (.sign hs ht (.operand ha (hcall atom))) hsigned⟩

theorem Written.At.reads (h : w.At ts behind) (hf : w.Filled behind) :
    Reads (.operand w.node) ts behind := by
  obtain ⟨rest, hrest, hreads⟩ := h.reads_room hf.2
  rw [List.drop_eq_nil_of_le hf.1] at hrest
  cases hrest
  exact hreads

theorem Returns.ok {α : Type} {p : Parser Scan α} {a : α} {rest : List Token}
    (h : Returns depth p ts a rest) (hd : ts.length < depth) (stop : Position) :
    p ⟨ts, stop, none⟩ = .ok a ⟨rest, stop, none⟩ :=
  (h stop).resolve_right fun ⟨_, _, _, _, hle⟩ => Nat.not_lt_of_le hle hd

theorem peek_scan (ts : List Token) (stop : Position) :
    peek (⟨ts, stop, none⟩ : Scan) = .ok ts.head? ⟨ts, stop, none⟩ := by
  cases ts <;> rfl

theorem Strung.links (h : Strung w pairs ts behind) (hr : ts.length < rounds)
    (hd : ts.length < depth) (stop : Position) :
    ∃ mid left,
      (level rounds depth).operand (⟨ts, stop, none⟩ : Scan) = .ok w.node ⟨mid, stop, none⟩ ∧
      Links (level rounds depth).operand (⟨mid, stop, none⟩ : Scan) (operandNodes pairs)
        ⟨left, stop, none⟩ ∧
      operatorText? left.head? = none ∧ left.length < ts.length ∧
      ∀ tree, Reads (.invocation tree
        (called tree (lastOperand w pairs).lists[(lastOperand w pairs).room]?)) left behind := by
  have operand {w : Written} {ts rest : List Token} (h : Reads (.operand w.node) ts rest)
      (hr : ts.length < rounds) (hd : ts.length < depth) :
      (level rounds depth).operand (⟨ts, stop, none⟩ : Scan) = .ok w.node ⟨rest, stop, none⟩ :=
    Returns.ok (h.returned hr) hd stop
  -- by the operands: only the last may have more lists than it has room for
  induction h with
  | @last w ts rest hat hle hend =>
    obtain ⟨left, hleft, hreads⟩ := hat.reads_room fun hlt => (hend (Nat.le_of_lt hlt)).1
    refine ⟨left, left, operand hreads hr hd, .stop (peek_scan left stop), ?_, hreads.length_le, ?_⟩
    · by_cases hroom : w.lists.length ≤ w.room
      · rw [List.drop_eq_nil_of_le hroom] at hleft
        cases hleft
        exact (hend hroom).2
      · generalize hdrop : w.lists.drop w.room = lists at hleft
        cases hleft with
        | none => exact absurd (List.drop_eq_nil_iff.1 hdrop) hroom
        | more ho => exact operatorText?_punctuation ho
    · intro tree
      obtain ⟨rest, hrest, hcall⟩ := hleft.first fun h => (hend (List.drop_eq_nil_iff.1 h)).1
      rw [List.drop_drop, List.drop_eq_nil_of_le hle] at hrest
      cases hrest
      have hinvocation := hcall tree
      rwa [List.getElem?_drop] at hinvocation
  | @more w v op t pairs ts us rest hat hle hop hp _ ih =>
    have hmark : isMark openParen (t :: us).head? = false := not_isMark (by rw [hop]; exact nofun)
    have hreads := hat.reads ⟨hle, fun _ => hmark⟩
    have hlength : us.length + 1 + 1 ≤ ts.length := hreads.length_le
    obtain ⟨mid, left, hoperand, hlinks, hnone, hlt, hcall⟩ := ih (by omega) (by omega)
    exact ⟨_, left, operand hreads hr hd, .link rfl hop rfl hoperand hlinks, hnone, by omega, hcall⟩

theorem Strung.powers (h : Strung w pairs ts behind) :
    ∀ p ∈ operandNodes pairs, 0 < power p.1 ∧ (bindingPower? p.1).isSome := by
  induction h with
  | last => exact nofun
  | more _ _ _ hp _ ih =>
    refine List.forall_mem_cons.2 ⟨⟨?_, hp⟩, ih⟩
    obtain ⟨n, hn⟩ := Option.isSome_iff_exists.1 hp
    rw [power, hn]
    exact bindingPower?_pos hn

theorem bindings_whole {operand : Parser Scan Node} {s left : Scan} {t : Option Token}
    {pairs : List (String × Node)} (h : Links operand s pairs left) (hr : pairs.length < rounds)
    (hp : ∀ p ∈ pairs, 0 < power p.1 ∧ (bindingPower? p.1).isSome)
    (hl : peek left = .ok t left) (ht : operatorText? t = none) (d : Node) :
    ∃ tree, bindings operand rounds d 0 s = .ok tree left ∧ Grouping d pairs tree := by
  obtain ⟨m, tree, hrun, hused, hrest, hgroup⟩ :=
    bindings_links h hr (fun p hm => (hp p hm).2) hl ht d 0
  rw [unbound_nil fun p hm => (hp p hm).1] at hrest
  rw [binding_all fun p hm => (hp p hm).1] at hgroup
  obtain ⟨u, hu⟩ := hused.peek_last
  cases hrest with
  | stop hm =>
    obtain ⟨_, rfl⟩ := EStateM.Result.ok.inj (hu.symm.trans hm)
    exact ⟨tree, hrun, hgroup⟩

theorem Strung.reads (h : Strung w pairs ts behind) :
    ∃ tree, Grouping w.node (operandNodes pairs) tree ∧
      Reads (.expression (called tree (lastOperand w pairs).lists[(lastOperand w pairs).room]?))
        ts behind := by
  -- no construct of the chain exceeds so many rounds or levels
  obtain ⟨n, hn⟩ : ∃ n, n = ts.length + 1 := ⟨_, rfl⟩
  have hlt : ts.length < n := by omega
  obtain ⟨mid, left, hoperand, hlinks, hnone, hleft, hcall⟩ :=
    h.links hlt (Nat.lt_succ_of_lt hlt) .start
  have hcount : (operandNodes pairs).length < n := by
    have hle := hlinks.length_le fun _ _ _ h => size_operand h
    have hmid := size_operand hoperand
    exact Nat.lt_of_le_of_lt (Nat.le_trans hle hmid) hlt
  obtain ⟨tree, hrun, hgroup⟩ :=
    bindings_whole hlinks hcount h.powers (peek_scan left .start) hnone w.node
  have hreturns : Returns (n + 1) (invocation n (level n n).expression tree) left _ behind :=
    (hcall tree).returned (by omega)
  have hexpression : (level n (n + 1)).expression (⟨ts, .start, none⟩ : Scan) =
      .ok _ ⟨behind, .start, none⟩ :=
    (bind_of_ok hoperand _).trans ((bind_of_ok hrun _).trans (hreturns.ok (by omega) .start))
  obtain ⟨rest, heq, hreads⟩ := (level_yields n (n + 1)).expression ts .start _ _ hexpression
  cases heq
  exact ⟨tree, hgroup, hreads⟩

end Written

section Read

variable {n chain left : Node} {least : Int} {ts mid rest : List Token}

theorem Lists.of_invocation (h : Reads (.invocation chain n) ts rest) :
    ∃ lists : List (List Node), Lists lists ts rest ∧ lists.length ≤ 1 ∧
      (lists = [] → isMark openParen rest.head? = false) := by
  cases h with
  | uncalled hm => exact ⟨[], .none ts, Nat.zero_le _, fun _ => hm⟩
  | @call item o c _ args ts rest hi ho hc hl =>
    exact ⟨[args], .more ho hc (hl.mono hi) (.none rest), Nat.le_refl _, nofun⟩

theorem Lists.append {lists more : List (List Node)} (h : Lists lists ts mid)
    (h' : Lists more mid rest) : Lists (lists ++ more) ts rest := by
  induction h with
  | none => exact h'
  | more ho hc hl _ ih => exact .more ho hc hl (ih h')

theorem Lists.opens {lists : List (List Node)} (h : Lists lists ts rest)
    (hm : isMark openParen ts.head? = false) : lists = [] := by
  cases h with
  | none => rfl
  | more ho => exact absurd (isMark_some.2 ho) (Bool.eq_false_iff.1 hm)

theorem Written.At.append {w : Written} {more : List (List Node)} (h : w.At ts mid)
    (h' : Lists more mid rest) : Written.At ⟨w.sign, w.atom, w.lists ++ more⟩ ts rest := by
  cases h with
  | unsigned hs ha hl => exact .unsigned hs ha (hl.append h')
  | signed hs ht ha hl => exact .signed hs ht ha (hl.append h')

theorem Reads.signed_or_unsigned (h : Reads (.atom n) ts rest) :
    (∃ s us d, ts = s :: us ∧ isOperatorAmong signOperators s.lexeme ∧
      us.head?.any (takesSign ·.lexeme) ∧ Reads (.operand d) us rest) ∨
    ∀ t ∈ ts.head?, isOperatorAmong signOperators t.lexeme = false := by
  have unsigned {t : Token} {us : List Token}
      (ht : isOperatorAmong signOperators t.lexeme = false) :
      ∀ u ∈ (t :: us).head?, isOperatorAmong signOperators u.lexeme = false := by
    intro u hu
    rwa [← Option.some.inj hu]
  cases h with
  | sign hs ht hd => exact .inl ⟨_, _, _, rfl, hs, ht, hd⟩
  | group ho | block _ ho => exact .inr (unsigned (by rw [ho]; rfl))
  | rule _ hr => exact .inr (unsigned (by rw [hr]; rfl))
  | truth ht => exact .inr (unsigned (by rw [ht]; rfl))
  | @leaf t rest ht =>
    refine .inr (unsigned ?_)
    cases hx : t.lexeme with
    | operator text =>
      rw [hx] at ht
      cases ht
    | _ => rfl

theorem Written.of_operand (h : Reads (.operand n) ts rest) :
    ∃ w : Written, w.At ts rest ∧ w.Filled rest := by
  cases h with
  | @operand a _ _ mid _ ha hn =>
    obtain ⟨outer, houter, hle, hend⟩ := Lists.of_invocation hn
    rcases ha.signed_or_unsigned with ⟨s, us, d, rfl, hs, ht, hd⟩ | hts
    · cases hd with
      | operand ha' hd =>
        obtain ⟨lists, hlists, hle', hend'⟩ := Lists.of_invocation hd
        refine ⟨⟨some s, _, lists ++ outer⟩, .signed hs ht ha' (hlists.append houter), ?_, ?_⟩
        · rw [List.length_append]
          exact Nat.add_le_add hle' hle
        · intro hlt
          have hfew : lists.length + outer.length < 2 := by rwa [← List.length_append]
          by_cases hl : lists = []
          · exact hend (houter.opens (hend' hl))
          · have hpos := List.length_pos_iff.2 hl
            exact hend (List.length_eq_zero_iff.1 (by omega))
    · refine ⟨⟨none, a, outer⟩, .unsigned hts ha houter, hle, fun hlt => hend ?_⟩
      exact List.length_eq_zero_iff.1 (Nat.lt_one_iff.1 hlt)

def Resumes (ts rest : List Token) : Prop :=
  ∀ (w : Written) (us : List Token), w.At us ts → w.Filled ts →
    ∃ v pairs, Strung v pairs us rest

theorem resumes_invocation (h : Reads (.invocation chain n) ts rest)
    (hs : operatorText? ts.head? = none) : Resumes ts rest := by
  intro w us hat hfilled
  obtain ⟨lists, hlists, hle, hend⟩ := Lists.of_invocation h
  refine ⟨⟨w.sign, w.atom, w.lists ++ lists⟩, [], .last (hat.append hlists) ?_ fun hroom => ?_⟩
  · change (w.lists ++ lists).length ≤ w.room + 1
    rw [List.length_append]
    exact Nat.add_le_add hfilled.1 hle
  · have hnone : lists = [] := by
      by_contra hl
      have hpos := List.length_pos_iff.2 hl
      have hlength : w.lists.length + lists.length ≤ w.room := by rwa [← List.length_append]
      exact hl (hlists.opens (hfilled.2 (by omega)))
    subst hnone
    cases hlists
    exact ⟨hend rfl, hs⟩

theorem resumes_bindings (h : Reads (.bindings left least n) ts mid) (hm : Resumes mid rest) :
    Resumes ts rest := by
  generalize hp : Phrase.bindings left least n = phrase at h
  induction h generalizing left least n with
  | bound => exact hm
  | @pair t op power least left d right n ts m₁ m₂ mid ht hpower _ hd _ _ _ ihright ihn =>
    intro w us hat hfilled
    obtain ⟨x, hx, hxfilled⟩ := Written.of_operand hd
    obtain ⟨v, pairs, hstrung⟩ := ihright (ihn hm rfl) rfl x ts hx hxfilled
    exact ⟨w, (op, v) :: pairs, .more hat hfilled.1 ht (by simp [hpower]) hstrung⟩
  | _ => cases hp

theorem Reads.bindings_stop (h : Reads (.bindings left least n) ts rest) : Stops least rest := by
  generalize hp : Phrase.bindings left least n = phrase at h
  induction h generalizing left least n with
  | bound hs =>
    cases hp
    exact hs
  | pair _ _ _ _ _ _ _ _ ihn =>
    cases hp
    exact ihn rfl
  | _ => cases hp

theorem operatorText?_of_stops (h : Stops 0 ts) : operatorText? ts.head? = none := by
  cases hop : operatorText? ts.head? with
  | none => rfl
  | some op =>
    obtain ⟨power, hp, hle⟩ := h op hop
    exact absurd (bindingPower?_pos hp) (Int.not_lt.2 hle)

theorem Strung.of_expression (h : Reads (.expression n) ts rest) :
    ∃ w pairs, Strung w pairs ts rest := by
  cases h with
  | expression hd hc hn =>
    obtain ⟨w, hw, hfilled⟩ := Written.of_operand hd
    have hresumes := resumes_invocation hn (operatorText?_of_stops hc.bindings_stop)
    exact resumes_bindings hc hresumes w ts hw hfilled

end Read

theorem Lockstep.finished {α β : Type} {V : α → β → Prop} {ready : Bool} {p : Parser Scan α}
    {q : Parser Scan β} (h : Lockstep (.within fun _ => True) Scan Scan ready V p q)
    {ts : List Token} {stop : Position} {e : Failure} {a : α} {s : Scan}
    (hp : p ⟨ts, stop, some e⟩ = .ok a s) : ∃ rest b, s = ⟨rest, stop, some e⟩ ∧ V a b ∧
      q ⟨ts, stop, none⟩ = .ok b ⟨rest, stop, none⟩ := by
  induction h generalizing ts s with
  | pure hv =>
    obtain ⟨rfl, rfl⟩ := EStateM.Result.ok.inj hp
    exact ⟨ts, _, rfl, hv, rfl⟩
  | bind _ _ ihp ihf =>
    obtain ⟨a, mid, ha, hb⟩ := bind_ok.1 hp
    obtain ⟨us, x, rfl, hx, hq⟩ := ihp ha
    obtain ⟨rest, y, rfl, hy, hrest⟩ := ihf a x hx hb
    exact ⟨rest, y, rfl, hy, (bind_of_ok hq _).trans hrest⟩
  | look _ ih =>
    cases ts with
    | nil => cases hp
    | cons t ts =>
      have ht : Correspondence.token (.within fun _ => True) t t := ⟨rfl, trivial⟩
      exact ih (some t) (some t) (.some ht) hp
  | next =>
    cases ts with
    | nil => cases hp
    | cons t ts =>
      have ht : Correspondence.token (.within fun _ => True) t t := ⟨rfl, trivial⟩
      obtain ⟨rfl, rfl⟩ := EStateM.Result.ok.inj hp
      exact ⟨ts, some t, rfl, .some ht, rfl⟩
  | refuse =>
    obtain ⟨_, _, _, hb⟩ := bind_ok.1 hp
    cases hb
  | fail | tooDeep | exhausted => cases hp

theorem expression_finished {rounds depth : Nat} {ts : List Token} {stop : Position}
    {f : Option Failure} {n : Node} {s : Scan}
    (h : (level rounds depth).expression ⟨ts, stop, f⟩ = .ok n s) : ∃ rest,
      s = ⟨rest, stop, f⟩ ∧
      (level rounds depth).expression (⟨ts, stop, none⟩ : Scan) = .ok n ⟨rest, stop, none⟩ := by
  cases f with
  | none =>
    obtain ⟨rest, rfl, -⟩ := (level_yields rounds depth).expression ts stop n s h
    exact ⟨rest, rfl, h⟩
  | some e =>
    obtain ⟨rest, b, rfl, hb, hfinished⟩ := (level_matches rounds depth).expression.finished h
    obtain rfl := Node.eq_of_matches hb
    exact ⟨rest, rfl, hfinished⟩

/-- Where argument lists attach. An operand takes a list for its atom and one more for its sign. A
chain goes on behind the operands that have no more; one more behind the last of them goes to the
tree of the whole chain, and whatever stands behind that list is left. Every expression that is
read, from whatever scan, is such a chain. -/
theorem lists_attach {rounds : Nat} {ts : List Token} (hr : ts.length < rounds) (depth : Nat) :
    (∀ (w : Written) (rest : List Token), w.At ts rest → w.Filled rest →
      Returns depth (level rounds depth).operand ts w.node rest) ∧
    (∀ (w : Written) (pairs : List (String × Written)) (rest : List Token),
      Strung w pairs ts rest → ∃ tree,
        (∀ n, Grouping w.node (operandNodes pairs) n ↔ n = tree) ∧
        Returns depth (level rounds depth).expression ts
          (called tree (lastOperand w pairs).lists[(lastOperand w pairs).room]?) rest) ∧
    ∀ (stop : Position) (f : Option Failure) (n : Node) (s : Scan),
      (level rounds depth).expression ⟨ts, stop, f⟩ = .ok n s →
      ∃ w pairs rest tree, Strung w pairs ts rest ∧ Grouping w.node (operandNodes pairs) tree ∧
        n = called tree (lastOperand w pairs).lists[(lastOperand w pairs).room]? ∧
        s = ⟨rest, stop, f⟩ := by
  refine ⟨fun w rest hw hf => (hw.reads hf).returned hr, fun w pairs rest h => ?_,
    fun stop f n s h => ?_⟩
  · obtain ⟨tree, hgroup, hreads⟩ := h.reads
    refine ⟨tree, fun n => ⟨fun h => h.unique hgroup, ?_⟩, hreads.returned hr⟩
    rintro rfl
    exact hgroup
  · obtain ⟨rest, rfl, hfinished⟩ := expression_finished h
    obtain ⟨_, hrest, hread⟩ := (level_yields rounds depth).expression ts stop n _ hfinished
    cases hrest
    obtain ⟨w, pairs, hstrung⟩ := Strung.of_expression hread
    obtain ⟨tree, hgroup, hreads⟩ := hstrung.reads
    refine ⟨w, pairs, rest, tree, hstrung, hgroup, ?_, rfl⟩
    have hreturns : Returns depth (level rounds depth).expression ts _ rest := hreads.returned hr
    rcases hreturns stop with hok | ⟨e, s, herror, -⟩
    · exact (EStateM.Result.ok.inj (hfinished.symm.trans hok)).1
    · cases hfinished.symm.trans herror

def nameToken (name : String) : Token := ⟨.identifier name, .start⟩

def nameList (name : String) : List Token :=
  [⟨.punctuation openParen, .start⟩, nameToken name, ⟨.punctuation closeParen, .start⟩]

theorem Lists.names {name : String} {lists : List (List Node)} {ts rest : List Token}
    (h : Lists lists ts rest) :
    Lists ([.leaf (nameToken name)] :: lists) (nameList name ++ ts) rest := by
  have hname : Reads (.expression (.leaf (nameToken name)))
      (nameToken name :: ⟨.punctuation closeParen, .start⟩ :: ts)
      (⟨.punctuation closeParen, .start⟩ :: ts) :=
    .expression (.operand (.leaf rfl) (.uncalled rfl)) (.bound (stops_of_none rfl)) (.uncalled rfl)
  exact .more rfl rfl (.first rfl hname (.stop (ends_cons.2 rfl))) h

def manyLists : List Token :=
  nameToken "a" :: ⟨.operator "+", .start⟩ :: ⟨.operator "-", .start⟩ :: nameToken "f" ::
    (nameList "b" ++ (nameList "c" ++ (nameList "d" ++ (nameList "e" ++ []))))

theorem lists_attach_signed :
    (level 20 20).expression (⟨manyLists, .start, none⟩ : Scan) =
      .ok (.call (.binary "+" (.leaf (nameToken "a"))
          (.call (.binary "*" (.leaf ⟨.number .minusOne, .start⟩)
              (.call (.leaf (nameToken "f")) [.leaf (nameToken "b")]))
            [.leaf (nameToken "c")])) [.leaf (nameToken "d")])
        ⟨nameList "e", .start, none⟩ := by
  have hlists : Lists [[.leaf (nameToken "b")], [.leaf (nameToken "c")], [.leaf (nameToken "d")]]
      _ (nameList "e" ++ []) := .names (.names (.names (.none _)))
  have hat : Written.At ⟨none, .leaf (nameToken "a"), []⟩ manyLists _ :=
    .unsigned (by decide) (.leaf rfl) (.none _)
  have hstrung : Strung _ [("+", ⟨some ⟨.operator "-", .start⟩, .leaf (nameToken "f"), _⟩)] _ _ :=
    .more hat (by decide) rfl rfl
      (.last (.signed rfl rfl (.leaf rfl) hlists) (by decide) fun h => absurd h (by decide))
  have hsize : manyLists.length < 20 := by decide
  obtain ⟨tree, htree, hreturns⟩ := (lists_attach hsize 20).2.1 _ _ _ hstrung
  have hsum := (htree _).1 (@Grouping.root _ _ _ _ "+" [] [] nofun nofun (.operand _) (.operand _))
  rw [← hsum] at hreturns
  exact hreturns.ok hsize .start

end RuleLang.Parser
