import RuleLang.Proofs.Framing
import RuleLang.Proofs.ReadingOrder

/-!
Operands are replaceable. A leaf of a tree is an operand of the program, or the factor that stands
for a minus sign. In place of an operand there may stand any expression in parentheses, or in
braces unless a sign stands right before it, and in place of the sign another: the program is read
as before, with nothing changed but the leaf.
-/
namespace RuleLang

open RuleLang.Vocabulary RuleLang.Parser

/-- A tree with one place left open. -/
inductive Context
  | hole
  | block (before : List Node) (inner : Context) (behind : List Node)
  | callee (inner : Context) (args : List Node)
  | argument (callee : Node) (before : List Node) (inner : Context) (behind : List Node)
  | body (name : Option String) (params : List String) (inner : Context)
  | left (op : String) (inner : Context) (right : Node)
  | right (op : String) (left : Node) (inner : Context)
  | target (inner : Context) (value : Node)
  | value (target : Node) (inner : Context)

namespace Context

def fill : Context → Node → Node
  | hole, n => n
  | block before inner behind, n => .block (before ++ inner.fill n :: behind)
  | callee inner args, n => .call (inner.fill n) args
  | argument f before inner behind, n => .call f (before ++ inner.fill n :: behind)
  | body name params inner, n => .rule name params (inner.fill n)
  | left op inner b, n => .binary op (inner.fill n) b
  | right op a inner, n => .binary op a (inner.fill n)
  | target inner b, n => .assign (inner.fill n) b
  | value a inner, n => .assign a (inner.fill n)

variable {C : Context} {x : Token}

theorem fill_leaf {t : Token} (h : .leaf t = C.fill (.leaf x)) : t = x ∧ C = hole := by
  cases C <;> cases h
  exact ⟨rfl, rfl⟩

theorem fill_joined {op : String} {left right : Node}
    (h : Node.joined op left right = C.fill (.leaf x)) :
    (∃ C' : Context, left = C'.fill (.leaf x) ∧
      ∀ y, Node.joined op (C'.fill y) right = C.fill y) ∨
    ∃ C' : Context, right = C'.fill (.leaf x) ∧
      ∀ y, Node.joined op left (C'.fill y) = C.fill y := by
  unfold Node.joined at h ⊢
  split at h
  · next ho =>
    simp only [ho, if_true]
    cases C <;> cases h
    · exact .inl ⟨_, rfl, fun y => rfl⟩
    · exact .inr ⟨_, rfl, fun y => rfl⟩
  · next ho =>
    simp only [ho, if_false]
    cases C <;> cases h
    · exact .inl ⟨_, rfl, fun y => rfl⟩
    · exact .inr ⟨_, rfl, fun y => rfl⟩

theorem fill_call {callee : Node} {args : List Node}
    (h : .call callee args = C.fill (.leaf x)) :
    (∃ C' : Context, callee = C'.fill (.leaf x) ∧ ∀ y, .call (C'.fill y) args = C.fill y) ∨
    ∃ (C' : Context) (before behind : List Node), args = before ++ C'.fill (.leaf x) :: behind ∧
      ∀ y, .call callee (before ++ C'.fill y :: behind) = C.fill y := by
  cases C <;> cases h
  · exact .inl ⟨_, rfl, fun y => rfl⟩
  · exact .inr ⟨_, _, _, rfl, fun y => rfl⟩

theorem fill_sequence {nodes : List Node} (h : Node.sequence nodes = C.fill (.leaf x)) :
    ∃ (C' : Context) (before behind : List Node), nodes = before ++ C'.fill (.leaf x) :: behind ∧
      ∀ y, Node.sequence (before ++ C'.fill y :: behind) = C.fill y := by
  match nodes, h with
  | [n], h => exact ⟨C, [], [], congrArg (fun n => [n]) h, fun y => rfl⟩
  | [], h =>
    cases C with
    | block before inner behind =>
      have hnil := Node.block.inj h
      simp at hnil
    | _ => cases h
  | n :: m :: nodes, h =>
    cases C with
    | block before inner behind =>
      have hbody := Node.block.inj h
      refine ⟨inner, before, behind, hbody, fun y => ?_⟩
      match before, behind, hbody with
      | [], _ :: _, _ => rfl
      | [_], _, _ => rfl
      | _ :: _ :: _, _, _ => rfl
    | _ => cases h

theorem fill_rule {name : Option String} {params : List String} {b : Node}
    (h : .rule name params b = C.fill (.leaf x)) :
    ∃ C' : Context, b = C'.fill (.leaf x) ∧ ∀ y, .rule name params (C'.fill y) = C.fill y := by
  cases C <;> cases h
  exact ⟨_, rfl, fun y => rfl⟩

theorem fill_applySign {s : Token} {n : Node} (h : applySign s n = C.fill (.leaf x)) :
    (s.lexeme = .operator negateOperator ∧ x = ⟨.number .minusOne, s.position⟩ ∧
      ∀ y, C.fill y = .binary timesOperator y n) ∨
    ∃ C' : Context, n = C'.fill (.leaf x) ∧ ∀ y, applySign s (C'.fill y) = C.fill y := by
  unfold Parser.applySign at h ⊢
  split at h
  · next hs =>
    simp only [hs, if_true]
    cases C with
    | left op inner b =>
      obtain ⟨rfl, hleaf, rfl⟩ := Node.binary.inj h
      obtain ⟨rfl, rfl⟩ := fill_leaf hleaf
      exact .inl ⟨trivial, rfl, fun y => rfl⟩
    | right op a inner =>
      obtain ⟨rfl, rfl, rfl⟩ := Node.binary.inj h
      exact .inr ⟨inner, rfl, fun y => rfl⟩
    | _ => cases h
  · next hs =>
    simp only [hs, if_false]
    exact .inr ⟨C, h, fun y => rfl⟩

end Context

def AwaitsOperand (before : List Token) : Prop := ∀ t ∈ before.getLast?, t.awaitsOperand

def EndsWithSign (before : List Token) : Prop :=
  ∃ earlier s, before = earlier ++ [s] ∧ isOperatorAmong signOperators s.lexeme ∧
    AwaitsOperand earlier

namespace AwaitsOperand

variable {before more : List Token} {t : Token}

theorem snoc (h : t.awaitsOperand) : AwaitsOperand (before ++ [t]) := by
  intro u hu
  obtain rfl : t = u := by simpa using hu
  exact h

theorem append (hb : AwaitsOperand before) (hm : AwaitsOperand more) :
    AwaitsOperand (before ++ more) := by
  cases more with
  | nil => rwa [List.append_nil]
  | cons m more =>
    intro u hu
    rw [List.getLast?_append_of_ne_nil _ (List.cons_ne_nil m more)] at hu
    exact hm u hu

theorem mark {p : String} (ht : t.lexeme = .punctuation p)
    (hp : p ∈ [openParen, openBrace, comma, semicolon]) : AwaitsOperand (before ++ [t]) :=
  snoc (by rw [Token.awaitsOperand_punctuation ht, decide_eq_true hp])

end AwaitsOperand

theorem awaitsOperand_sign {s : Token} (hs : isOperatorAmong signOperators s.lexeme) :
    s.awaitsOperand := by
  obtain ⟨x, p⟩ := s
  cases x with
  | operator o => rfl
  | _ => cases hs

/-- Tokens that are read as the operand whatever stands behind them. -/
def Stands (ts : List Token) (y : Node) : Prop := ∀ rest, Reads (.atom y) (ts ++ rest) rest

/-- What may stand in the place of a token, and the node that the leaf becomes. -/
inductive Origin (before : List Token) (x : Token) : Token → (List Token → Node → Prop) → Prop
  | operand : x.lexeme.isLeaf → Origin before x x fun ts y =>
    Stands ts y ∧ (ts.head?.any (takesSign ·.lexeme) ∨ ¬ EndsWithSign before)
  | sign {s : Token} : s.lexeme = .operator negateOperator →
    x = ⟨.number .minusOne, s.position⟩ → Origin before x s fun ts y =>
    ∃ s', s'.lexeme = .operator negateOperator ∧ ts = [s'] ∧
      y = .leaf ⟨.number .minusOne, s'.position⟩

theorem Origin.takesSign {before ts us : List Token} {x t : Token}
    {Allowed : List Token → Node → Prop} {y : Node} (h : Origin before x t Allowed)
    (hb : EndsWithSign before) (ht : (t :: ts).head?.any (takesSign ·.lexeme))
    (hy : Allowed us y) : (us ++ ts).head?.any (takesSign ·.lexeme) := by
  cases h with
  | operand =>
    have hhead := hy.2.resolve_right fun h => h hb
    cases us with
    | nil => cases hhead
    | cons u us => exact hhead
  | sign hs _ =>
    obtain ⟨s, p⟩ := t
    obtain rfl : s = .operator negateOperator := hs
    cases ht

def Located (before ts : List Token) (x : Token) (R : Node → List Token → Prop) : Prop :=
  ∃ pre t post Allowed, ts = pre ++ t :: post ∧ Origin (before ++ pre) x t Allowed ∧
    ∀ us y, Allowed us y → R y (pre ++ (us ++ post))

namespace Located

variable {before ts : List Token} {x : Token} {R R' : Node → List Token → Prop}

theorem mono (h : Located before ts x R) (hr : ∀ y us, R y us → R' y us) :
    Located before ts x R' := by
  obtain ⟨pre, t, post, Allowed, hts, ho, hall⟩ := h
  exact ⟨pre, t, post, Allowed, hts, ho, fun us y hy => hr _ _ (hall us y hy)⟩

theorem behind {used : List Token} (h : Located (before ++ used) ts x R)
    (hr : ∀ y us, R y us → R' y (used ++ us)) : Located before (used ++ ts) x R' := by
  obtain ⟨pre, t, post, Allowed, rfl, ho, hall⟩ := h
  refine ⟨used ++ pre, t, post, Allowed, (List.append_assoc ..).symm, ?_, fun us y hy => ?_⟩
  · rwa [← List.append_assoc]
  · rw [List.append_assoc]
    exact hr _ _ (hall us y hy)

theorem behind_token {used : List Token} {t : Token}
    (h : Located (before ++ used ++ [t]) ts x R)
    (hr : ∀ y us, R y us → R' y (used ++ t :: us)) : Located before (used ++ t :: ts) x R' := by
  rw [List.append_assoc] at h
  rw [List.append_cons]
  refine h.behind fun y us hy => ?_
  rw [← List.append_cons]
  exact hr y us hy

end Located

namespace Parser

def Phrase.Replaceable : Phrase → List Token → List Token → Prop
  | .program ns, ts, rest => ∀ before front C x behind, AwaitsOperand before →
    ns = front ++ Context.fill C (.leaf x) :: behind →
    Located before ts x fun y us => Reads (.program (front ++ C.fill y :: behind)) us rest
  | .expression n, ts, rest => ∀ before C x, AwaitsOperand before →
    n = Context.fill C (.leaf x) →
    Located before ts x fun y us => Reads (.expression (C.fill y)) us rest
  | .operand n, ts, rest => ∀ before C x, AwaitsOperand before → n = Context.fill C (.leaf x) →
    Located before ts x fun y us => Reads (.operand (C.fill y)) us rest
  | .atom n, ts, rest => ∀ before C x, AwaitsOperand before → n = Context.fill C (.leaf x) →
    Located before ts x fun y us => Reads (.atom (C.fill y)) us rest
  | .bindings left least n, ts, rest => ∀ before C x, n = Context.fill C (.leaf x) →
    (∃ C' : Context, left = C'.fill (.leaf x) ∧
      ∀ y, Reads (.bindings (C'.fill y) least (C.fill y)) ts rest) ∨
    ∃ t us, ts = t :: us ∧ Located (before ++ [t]) us x fun y vs =>
      Reads (.bindings left least (C.fill y)) (t :: vs) rest
  | .invocation callee n, ts, rest => ∀ before C x, n = Context.fill C (.leaf x) →
    (∃ C' : Context, callee = C'.fill (.leaf x) ∧
      ∀ y, Reads (.invocation (C'.fill y) (C.fill y)) ts rest) ∨
    ∃ t us, ts = t :: us ∧ Located (before ++ [t]) us x fun y vs =>
      Reads (.invocation callee (C.fill y)) (t :: vs) rest

section Lists

variable {item : Node → List Token → List Token → Prop} {stop separator : String} {first : Bool}
  {front behind : List Node} {n x : Node} {xs : List Node} {s : Token} {ts mid rest : List Token}

def Focused (item : Node → List Token → List Token → Prop) (stop separator : String)
    (first : Bool) (front : List Node) (n : Node) (behind : List Node) (ts rest : List Token) :
    Prop :=
  ∃ pre us mid, ts = pre ++ us ∧ item n us mid ∧ (first = false → pre ≠ []) ∧
    AwaitsOperand pre ∧ ∀ n' us', Reads (.expression n') us' mid →
      isMark stop us'.head? = false →
      Listed (fun n ts rest => Reads (.expression n) ts rest) stop separator first
        (front ++ n' :: behind) (pre ++ us') rest

theorem Focused.here (hn : item n ts mid) (h : Listed item stop separator false behind mid rest)
    (hi : ∀ n ts rest, item n ts rest → Reads (.expression n) ts rest) :
    Focused item stop separator true [] n behind ts rest :=
  ⟨[], ts, mid, rfl, hn, nofun, nofun, fun _ _ hn' hm => .first hm hn' (h.mono hi)⟩

theorem Focused.later (hm : isMark stop ts.head? = false) (hx : Reads (.expression x) ts mid)
    (h : Focused item stop separator false front n behind mid rest) :
    Focused item stop separator true (x :: front) n behind ts rest := by
  obtain ⟨pre, us, last, rfl, hn, hpre, ha, hall⟩ := h
  obtain ⟨p, pre, rfl⟩ := List.exists_cons_of_ne_nil (hpre rfl)
  obtain ⟨used, rfl, hx'⟩ := hx.framed (by simp)
  obtain ⟨t, used, rfl⟩ : ∃ t us, used = t :: us := by
    cases used with
    | nil => exact absurd hx.length_le (Nat.not_succ_le_self _)
    | cons t us => exact ⟨t, us, rfl⟩
  refine ⟨t :: used ++ p :: pre, us, last, by simp, hn, nofun, ?_, fun n' us' hn' hm' => ?_⟩
  · intro u hu
    rw [List.getLast?_append_of_ne_nil _ (List.cons_ne_nil p pre)] at hu
    exact ha u hu
  · rw [List.append_assoc]
    exact .first hm (hx' _ (.cons p _ _)) (hall n' us' hn' hm')

theorem Focused.next (hs : s.lexeme = .punctuation separator) (hstop : stop ∈ stops)
    (hsep : separator ∈ separators) (h : Focused item stop separator true front n behind ts rest) :
    Focused item stop separator false front n behind (s :: ts) rest := by
  obtain ⟨pre, us, last, rfl, hn, -, ha, hall⟩ := h
  have hmark : ∀ p ∈ separators, p ∈ [openParen, openBrace, comma, semicolon] := by decide
  refine ⟨s :: pre, us, last, rfl, hn, fun _ => List.cons_ne_nil s pre, ?_, fun n' us' hn' hm => ?_⟩
  · cases pre with
    | nil =>
      rw [← List.nil_append [s]]
      exact .mark hs (hmark separator hsep)
    | cons p pre => exact ha
  · refine (hall n' us' hn' hm).after_separator ?_ hs (stop_ne_separator hstop hsep)
    have hlt := hn'.length_le
    intro hnil
    obtain ⟨rfl, rfl⟩ := List.append_eq_nil_iff.1 hnil
    exact absurd hlt (Nat.not_succ_le_zero _)

theorem Listed.focused (h : Listed item stop separator first xs ts rest) (hstop : stop ∈ stops)
    (hsep : separator ∈ separators)
    (hi : ∀ n ts rest, item n ts rest → Reads (.expression n) ts rest)
    (hxs : xs = front ++ n :: behind) :
    Focused item stop separator first front n behind ts rest := by
  have begin_here {x : Node} {xs front : List Node} {ts mid rest : List Token}
      (hm : isMark stop ts.head? = false) (hx : item x ts mid)
      (hl : Listed item stop separator false xs mid rest)
      (ih : ∀ front, xs = front ++ n :: behind →
        Focused item stop separator false front n behind mid rest)
      (hxs : x :: xs = front ++ n :: behind) :
      Focused item stop separator true front n behind ts rest := by
    cases front with
    | nil =>
      obtain ⟨rfl, rfl⟩ := List.cons.inj hxs
      exact .here hx hl hi
    | cons y front =>
      obtain ⟨rfl, htail⟩ := List.cons.inj hxs
      exact .later hm (hi _ _ _ hx) (ih front htail)
  induction h generalizing front with
  | stop | trailing => simp at hxs
  | first hm hx hl ih => exact begin_here hm hx hl (fun _ h => ih h) hxs
  | next _ hs hm hx hl ih => exact .next hs hstop hsep (begin_here hm hx hl (fun _ h => ih h) hxs)

end Lists

theorem Reads.not_stop {n : Node} {ts rest : List Token} (h : Reads (.expression n) ts rest)
    {stop : String} (hs : stop ∈ stops) : isMark stop ts.head? = false := by
  obtain ⟨used, rfl, hd⟩ := h.derived
  exact ((hd.opens (.inl rfl)).append rest).not_stop hs

theorem Listed.located {item : Node → List Token → List Token → Prop} {stop separator : String}
    {front behind nodes : List Node} {C : Context} {x : Token} {ts rest before : List Token}
    (h : Listed item stop separator true nodes ts rest) (hstop : stop ∈ stops)
    (hsep : separator ∈ separators)
    (hi : ∀ n ts rest, item n ts rest → Reads (.expression n) ts rest)
    (ih : ∀ n ts rest, item n ts rest → Phrase.Replaceable (.expression n) ts rest)
    (hb : AwaitsOperand before) (hnodes : nodes = front ++ C.fill (.leaf x) :: behind) :
    Located before ts x fun y us => Listed (fun n ts rest => Reads (.expression n) ts rest)
      stop separator true (front ++ C.fill y :: behind) us rest := by
  obtain ⟨pre, us, mid, rfl, hn, -, hpre, hall⟩ := h.focused hstop hsep hi hnodes
  refine (ih _ _ _ hn (before ++ pre) C x (hb.append hpre) rfl).behind fun y vs hy => ?_
  exact hall _ _ hy (hy.not_stop hstop)

theorem Operation.located {least : Int} {d n : Node} {C : Context} {x : Token}
    {before ts mid rest : List Token} (hd : Reads (.operand d) ts mid)
    (ihd : Phrase.Replaceable (.operand d) ts mid)
    (ihn : Phrase.Replaceable (.bindings d least n) mid rest) (hb : AwaitsOperand before)
    (hn : n = C.fill (.leaf x)) :
    Located before ts x fun y us => Operation least (C.fill y) us rest := by
  obtain ⟨us, rfl, hd'⟩ := hd.framed (by simp)
  rcases ihn (before ++ us) C x hn with ⟨C', hleft, hchain⟩ | ⟨t, ws, rfl, hloc⟩
  · exact (ihd before C' x hb hleft).mono fun y vs hy => ⟨_, _, hy, hchain y⟩
  · exact hloc.behind_token fun y ws' hy => ⟨d, _, hd' _ (.cons t ws ws'), hy⟩

theorem Reads.replaceable {phrase : Phrase} {ts rest : List Token} (h : Reads phrase ts rest) :
    phrase.Replaceable ts rest := by
  have reads : ∀ n ts rest, Reads (.expression n) ts rest → Reads (.expression n) ts rest :=
    fun _ _ _ h => h
  -- along the reading: one part of the phrase has the leaf and is read with the other tokens, the
  -- parts in front of it are read alike before them
  induction h with
  | finish =>
    intro before front C x behind _ hns
    simp at hns
  | @last n ts _ ih =>
    intro before front C x behind hb hns
    cases front with
    | nil =>
      obtain ⟨rfl, rfl⟩ := List.cons.inj hns
      exact (ih before C x hb rfl).mono fun y us hy => .last hy
    | cons => simp at hns
  | @statement n ns s ts rest hn hs hns ihn ihns =>
    intro before front C x behind hb heq
    cases front with
    | nil =>
      obtain ⟨rfl, rfl⟩ := List.cons.inj heq
      exact (ihn before C x hb rfl).mono fun y us hy => .statement hy hs hns
    | cons m front =>
      obtain ⟨rfl, rfl⟩ := List.cons.inj heq
      obtain ⟨used, rfl, hn'⟩ := hn.framed (by simp)
      have hloc := ihns (before ++ used ++ [s]) front C x behind (.mark hs (by decide)) rfl
      exact hloc.behind_token fun y us hy => .statement (hn' _ (.cons s _ _)) hs hy
  | @expression d chain n ts m₁ m₂ rest hd hc hn ihd ihc ihn =>
    intro before C x hb hfill
    obtain ⟨us, rfl, hoperation⟩ := Operation.framed (hd.framed (by simp)) (hc.framed (by simp))
    rcases ihn (before ++ us) C x hfill with ⟨C₁, hn', hcall⟩ | ⟨t, ws, rfl, hloc⟩
    · exact (Operation.located hd ihd ihc hb hn').mono fun y vs hy => hy.expression (hcall y)
    · exact hloc.behind_token fun y ws' hy => (hoperation _ (.cons t ws ws')).expression hy
  | @operand a n ts mid rest ha hn iha ihn =>
    intro before C x hb hfill
    obtain ⟨us, rfl, ha'⟩ := ha.framed (by simp)
    rcases ihn (before ++ us) C x hfill with ⟨C₁, hatom, hcall⟩ | ⟨t, ws, rfl, hloc⟩
    · exact (iha before C₁ x hb hatom).mono fun y ws hy => .operand hy (hcall y)
    · exact hloc.behind_token fun y ws' hy => .operand (ha' _ (.cons t _ _)) hy
  | uncalled hm => exact fun before C x hfill => .inl ⟨C, hfill, fun y => .uncalled hm⟩
  | bound hs => exact fun before C x hfill => .inl ⟨C, hfill, fun y => .bound hs⟩
  | @call item o c callee args ts rest hi ho hc hl ih =>
    intro before C x hfill
    rcases Context.fill_call hfill with ⟨C₁, hcallee, hy⟩ | ⟨C₁, front, behind, hargs, hy⟩
    · exact .inl ⟨C₁, hcallee, fun y => hy y ▸ .call hi ho hc hl⟩
    · refine .inr ⟨o, ts, rfl, ?_⟩
      refine (hl.located (by decide) (by decide) hi ih (.mark ho (by decide)) hargs).mono ?_
      exact fun y us hus => hy y ▸ .call reads ho hc hus
  | @pair t op power least left d right n ts m₁ m₂ rest ht hp hlt hd hright hn ihd ihright ihn =>
    intro before C x hfill
    obtain ⟨us, rfl, hoperation⟩ := Operation.framed (hd.framed (by simp)) (hright.framed (by simp))
    have hawaits : AwaitsOperand (before ++ [t]) := .snoc (Token.awaitsOperand_operator ht)
    rcases ihn (before ++ [t] ++ us) C x hfill with ⟨C₁, hjoined, hmore⟩ | ⟨u, ws, rfl, hloc⟩
    · rcases Context.fill_joined hjoined with ⟨C₂, hleft, hy⟩ | ⟨C₂, hright', hy⟩
      · refine .inl ⟨C₂, hleft, fun y => .pair ht hp hlt hd hright ?_⟩
        rw [hy y]
        exact hmore y
      · refine .inr ⟨t, _, rfl, ?_⟩
        refine (Operation.located hd ihd ihright hawaits hright').mono fun y vs hr => ?_
        exact hr.pair ht hp hlt (hy y ▸ hmore y)
    · refine .inr ⟨t, _, rfl, hloc.behind_token fun y ws' hr => ?_⟩
      exact (hoperation _ (.cons u ws ws')).pair ht hp hlt hr
  | @group o c n ts rest ho hc _ ih =>
    intro before C x hb hfill
    have hloc := ih (before ++ [o]) C x (.mark ho (by decide)) hfill
    exact hloc.behind fun y us hy => .group ho hc hy
  | @block item o c nodes ts rest hi ho hc hl ih =>
    intro before C x hb hfill
    obtain ⟨C₁, front, behind, hnodes, hy⟩ := Context.fill_sequence hfill
    have hloc := hl.located (by decide) (by decide) hi ih
      (.mark ho (by decide) : AwaitsOperand (before ++ [o])) hnodes
    exact hloc.behind fun y us hus => hy y ▸ .block reads ho hc hus
  | @rule item r o c b d name params nodes ts us vs rest hi hr hname ho hc hps hf hb hd hl ih =>
    intro before C x _ hfill
    obtain ⟨C₁, hbody, hy⟩ := Context.fill_rule hfill
    obtain ⟨C₂, front, behind, hnodes, hy'⟩ := Context.fill_sequence hbody
    obtain ⟨title, rfl, htitle⟩ := hname.framed
    obtain ⟨names, rfl, hnames⟩ := hps.framed_names
    have hsplit (ws : List Token) : r :: (title ++ o :: (names ++ c :: b :: ws)) =
        (r :: (title ++ o :: (names ++ [c]))) ++ b :: ws := by simp
    rw [hsplit]
    have hloc := hl.located (by decide) (by decide) hi ih
      (.mark hb (by decide) : AwaitsOperand (before ++ r :: (title ++ o :: (names ++ [c])) ++ [b]))
      hnodes
    refine hloc.behind_token fun y ws hws => ?_
    rw [← hsplit, ← hy y, ← hy' y]
    exact .rule reads hr (htitle _) ho hc (hnames _) hf hb hd hws
  | @sign s n ts rest hs ht hn ih =>
    intro before C x hb hfill
    rcases Context.fill_applySign hfill with ⟨hneg, rfl, hy⟩ | ⟨C₁, hnode, hy⟩
    · refine ⟨[], s, ts, _, rfl, .sign hneg rfl, ?_⟩
      rintro us y ⟨s', hs', rfl, rfl⟩
      have hsign : C.fill (.leaf ⟨.number .minusOne, s'.position⟩) = applySign s' n := by
        rw [hy, applySign, if_pos hs']
      rw [hsign]
      exact .sign (by rw [hs']; rfl) ht hn
    · have hlast : AwaitsOperand (before ++ [s]) := .snoc (awaitsOperand_sign hs)
      obtain ⟨pre, t, post, Allowed, rfl, ho, hall⟩ := ih (before ++ [s]) C₁ x hlast hnode
      refine ⟨s :: pre, t, post, Allowed, rfl, by simpa using ho, fun us y hy' => ?_⟩
      have htakes : (pre ++ (us ++ post)).head?.any (takesSign ·.lexeme) := by
        cases pre with
        | cons p pre => exact ht
        | nil =>
          rw [List.nil_append]
          exact ho.takesSign ⟨before, s, List.append_nil _, hs, hb⟩ ht hy'
      have hread : Reads (.atom (applySign s (C₁.fill y))) (s :: (pre ++ (us ++ post))) rest :=
        .sign hs htakes (hall us y hy')
      rwa [hy y] at hread
  | @truth t value rest ht =>
    intro before C x hb hfill
    cases C <;> cases hfill
  | @leaf t rest ht =>
    intro before C x hb hfill
    obtain ⟨rfl, rfl⟩ := Context.fill_leaf hfill
    exact ⟨[], t, rest, _, rfl, .operand ht, fun us y hy => hy.1 rest⟩

theorem reads_of_program {limit : Nat} {ts : List Token} {stop : Position} {ns : List Node}
    {s : Scan} (h : program limit (Scan.ofTokens ts stop) = .ok ns s) :
    Reads (.program ns) ts [] := by
  obtain ⟨rest, _, rfl, hread⟩ := statements_yields (level_yields _ limit) _ ts stop ns s h
  exact hread

theorem Reads.alone {e : Node} {ts : List Token} (h : Reads (.program [e]) ts [])
    (hl : ∀ t ∈ ts.getLast?, t.lexeme ≠ .punctuation semicolon) :
    Reads (.expression e) ts [] := by
  cases h with
  | last hn => exact hn
  | @statement _ _ s _ rest hn hs hns =>
    cases hns
    obtain ⟨used, rfl, _⟩ := hn.derived
    exact absurd hs (hl s (by simp))

end Parser

inductive InParens (ts : List Token) : List Token → Prop
  | intro {o c : Token} : o.lexeme = .punctuation openParen → c.lexeme = .punctuation closeParen →
    InParens ts (o :: (ts ++ [c]))

/-- The tokens in braces, with or without a semicolon behind them. -/
inductive InBraces (ts : List Token) : List Token → Prop
  | open {o c : Token} : o.lexeme = .punctuation openBrace → c.lexeme = .punctuation closeBrace →
    InBraces ts (o :: (ts ++ [c]))
  | closed {o s c : Token} : o.lexeme = .punctuation openBrace →
    s.lexeme = .punctuation semicolon → c.lexeme = .punctuation closeBrace →
    InBraces ts (o :: (ts ++ [s, c]))

theorem InParens.stands {e : Node} {ts us : List Token} (h : InParens ts us)
    (he : Reads (.expression e) ts []) : Stands us e := by
  intro rest
  cases h with
  | @intro o c ho hc =>
    have hview : SameView [] (c :: rest) := .of_closes closes_nil (closes_stop hc (by decide) rest)
    obtain ⟨used, rfl, hread⟩ := he.framed (by simp)
    simp only [List.append_nil, List.cons_append, List.append_assoc, List.nil_append]
    exact .group ho hc (hread _ hview)

theorem InParens.takesSign {ts us : List Token} (h : InParens ts us) :
    us.head?.any (takesSign ·.lexeme) := by
  cases h with
  | intro ho => simp [Parser.takesSign, ho]

theorem InBraces.stands {e : Node} {ts us : List Token} (h : InBraces ts us)
    (he : Reads (.expression e) ts []) : Stands us e := by
  intro rest
  have hstop (more : List Token) : isMark closeBrace (ts ++ more).head? = false := by
    obtain ⟨used, rfl, hd⟩ := he.derived
    rw [List.append_nil]
    exact ((hd.opens (.inl rfl)).append more).not_stop (by decide)
  obtain ⟨used, hts, hread⟩ := he.framed (by simp)
  obtain rfl : ts = used := by rw [hts, List.append_nil]
  have hsequence : e = Node.sequence [e] := rfl
  rw [hsequence]
  cases h with
  | @«open» o c ho hc =>
    have hview : SameView [] (c :: rest) := .of_closes closes_nil (closes_stop hc (by decide) rest)
    simp only [List.cons_append, List.append_assoc, List.nil_append]
    exact .block (fun _ _ _ h => h) ho hc
      (.first (hstop _) (hread _ hview) (.stop (ends_cons.2 hc)))
  | @closed o s c ho hs hc =>
    have hview : SameView [] (s :: c :: rest) :=
      .of_closes closes_nil (closes_separator hs (by decide) _)
    have hne : s.lexeme ≠ .punctuation closeBrace := by
      rw [hs]
      decide
    simp only [List.cons_append, List.append_assoc, List.nil_append]
    exact .block (fun _ _ _ h => h) ho hc
      (.first (hstop _) (hread _ hview) (.trailing hne hs hc))

/-- Reading the tokens gives the trees, unless constructs nest too deeply, which takes as many
tokens as the limit. -/
def ReadAs (limit : Nat) (stop : Position) (ts : List Token) (ns : List Node) : Prop :=
  Parser.program limit (Scan.ofTokens ts stop) = .ok ns (Scan.ofTokens [] stop) ∨
    ∃ e s, Parser.program limit (Scan.ofTokens ts stop) = .error e s ∧ e.IsTooDeep ∧
      limit ≤ ts.length

theorem Parser.Reads.readAs {ns : List Node} {ts : List Token} (h : Reads (.program ns) ts [])
    (limit : Nat) (stop : Position) : ReadAs limit stop ts ns := by
  have hret : (Phrase.program ns).Returned (ts.length + 1) limit ts [] :=
    h.returned (Nat.lt_succ_self _)
  exact hret (ts.length + 1) (Nat.lt_succ_self _) stop

/-- Operands are replaceable. A leaf of the trees of a program is one of its tokens, or stands for
one of its minus signs. In place of that token there may be any program of one statement, in
parentheses or, unless a sign stands right before it, in braces: the trees are as before with that
statement for the leaf. And another sign in place of the sign moves the leaf to its place. -/
theorem operand_replaced {limit : Nat} {ts : List Token} {stop : Position}
    {front behind : List Node} {C : Context} {x : Token} {s : Scan}
    (h : Parser.program limit (Scan.ofTokens ts stop) =
      .ok (front ++ C.fill (.leaf x) :: behind) s) :
    (∃ pre post, ts = pre ++ x :: post ∧ x.lexeme.isLeaf ∧
      ∀ limit' stop' us e s', Parser.program limit' (Scan.ofTokens us stop') = .ok [e] s' →
        (∀ t ∈ us.getLast?, t.lexeme ≠ .punctuation semicolon) →
        ∀ vs, (InParens us vs ∨ InBraces us vs ∧ ¬ EndsWithSign pre) →
          ReadAs limit stop (pre ++ (vs ++ post)) (front ++ C.fill e :: behind)) ∨
    ∃ pre sign post, ts = pre ++ sign :: post ∧ sign.lexeme = .operator negateOperator ∧
      x = ⟨.number .minusOne, sign.position⟩ ∧
      ∀ sign', sign'.lexeme = .operator negateOperator →
        ReadAs limit stop (pre ++ sign' :: post)
          (front ++ C.fill (.leaf ⟨.number .minusOne, sign'.position⟩) :: behind) := by
  obtain ⟨pre, t, post, Allowed, rfl, ho, hall⟩ :=
    (reads_of_program h).replaceable [] front C x behind nofun rfl
  have hread {us : List Token} {y : Node} (hy : Allowed us y) :
      ReadAs limit stop (pre ++ (us ++ post)) (front ++ C.fill y :: behind) :=
    (hall us y hy).readAs limit stop
  cases ho with
  | operand hleaf =>
    refine .inl ⟨pre, post, rfl, hleaf, fun limit' stop' us e s' he hlast vs hvs => ?_⟩
    have hexpression := (reads_of_program he).alone hlast
    rcases hvs with hparens | ⟨hbraces, hsign⟩
    · exact hread ⟨hparens.stands hexpression, .inl hparens.takesSign⟩
    · exact hread ⟨hbraces.stands hexpression, .inr hsign⟩
  | sign hs hx =>
    refine .inr ⟨pre, t, post, rfl, hs, hx, fun sign' hsign' => ?_⟩
    exact hread ⟨sign', hsign', rfl, rfl⟩

theorem operand_replaced_signed :
    let token (x : Lexeme) (column : Int) : Token := ⟨x, ⟨1, column⟩⟩
    let minus := token (.operator "-") 0
    let a := token (.identifier "a") 1
    let sum := [token (.identifier "b") 3, token (.operator "+") 5, token (.identifier "c") 7]
    let group := token (.punctuation "(") 2 :: (sum ++ [token (.punctuation ")") 8])
    let negated (n : Node) : Node := .binary "*" (.leaf (token (.number .minusOne) 0)) n
    ∃ e, Parser.program 9 (Scan.ofTokens [minus, a] .start) =
        .ok [negated (.leaf a)] (Scan.ofTokens [] .start) ∧
      Parser.program 9 (Scan.ofTokens sum .start) = .ok [e] (Scan.ofTokens [] .start) ∧
      Parser.program 9 (Scan.ofTokens (minus :: group) .start) =
        .ok [negated e] (Scan.ofTokens [] .start) := by
  intro token minus a sum group negated
  let C : Context := .right "*" (.leaf (token (.number .minusOne) 0)) .hole
  have hread : Parser.program 9 (Scan.ofTokens [minus, a] .start) =
      .ok ([] ++ C.fill (.leaf a) :: []) (Scan.ofTokens [] .start) := rfl
  refine ⟨.binary "+" (.leaf (token (.identifier "b") 3)) (.leaf (token (.identifier "c") 7)),
    hread, rfl, ?_⟩
  rcases operand_replaced hread with ⟨pre, post, hts, _, hall⟩ | ⟨_, _, _, _, _, hx, _⟩
  · obtain ⟨rfl, rfl⟩ : pre = [minus] ∧ post = [] := by
      cases pre with
      | nil => cases congrArg Token.lexeme (List.cons.inj hts).1
      | cons p pre =>
        obtain ⟨rfl, htail⟩ := List.cons.inj hts
        cases pre with
        | nil => exact ⟨rfl, (List.cons.inj htail).2.symm⟩
        | cons q pre => simp at htail
    have hanswer := hall 9 .start sum _ _ rfl (by decide) group (.inl (.intro rfl rfl))
    exact hanswer.resolve_right fun ⟨_, _, _, _, hle⟩ => absurd hle (by decide)
  · cases congrArg Token.lexeme hx

end RuleLang
