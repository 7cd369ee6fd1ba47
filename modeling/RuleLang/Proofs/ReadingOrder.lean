import RuleLang.Proofs.Laziness
import RuleLang.Proofs.Writing

/-!
Trees in reading order. Read from left to right, the trees of a program hold its tokens, each once
and in their order. Marks and the word that begins a rule leave no trace, and a sign before an
operand becomes a product with minus one, or nothing. Whether a sign stands before an operand
shows in the token that it follows.
-/
namespace RuleLang

open RuleLang.Vocabulary RuleLang.Parser

namespace Node

mutual

def inOrder : Node → List Piece
  | leaf t => [.leaf t]
  | truth value => [.mark (.keyword (truthWord value))]
  | binary op left right => inOrder left ++ .mark (.operator op) :: inOrder right
  | assign left right => inOrder left ++ .mark (.operator assignOperator) :: inOrder right
  | call callee args => inOrder callee ++ inOrderAll args
  | block body => inOrderAll body
  | rule name params body =>
    name.toList.map .identifier ++ (params.map .identifier ++ inOrder body)
  | blank => []

def inOrderAll : List Node → List Piece
  | [] => []
  | n :: ns => inOrder n ++ inOrderAll ns

end

theorem inOrderAll_eq (ns : List Node) : inOrderAll ns = ns.flatMap inOrder := by
  induction ns with
  | nil => rfl
  | cons n ns ih => rw [inOrderAll, ih, List.flatMap_cons]

theorem inOrder_joined (op : String) (left right : Node) : (joined op left right).inOrder =
    left.inOrder ++ .mark (.operator op) :: right.inOrder := by
  by_cases h : op = assignOperator
  · rw [joined, if_pos h, inOrder, h]
  · rw [joined, if_neg h, inOrder]

theorem inOrder_sequence (ns : List Node) : (sequence ns).inOrder = inOrderAll ns := by
  match ns with
  | [] | _ :: _ :: _ => rfl
  | [n] => simp [sequence, inOrderAll]

end Node

namespace Token

/-- Whether an operand has to follow, so that a sign behind this token belongs to it. -/
def awaitsOperand (t : Token) : Bool :=
  match t.lexeme with
  | .operator _ => true
  | .punctuation p => p ∈ [openParen, openBrace, comma, semicolon]
  | _ => false

/-- What trees keep of a token; `unary` tells whether an operand has to follow in its place. -/
def kept (unary : Bool) (t : Token) : List Token :=
  match t.lexeme with
  | .punctuation _ => []
  | .keyword w => if w = ruleWord then [] else [t]
  | .operator o =>
    if unary ∧ o ∈ signOperators then
      if o = negateOperator then
        [⟨.number .minusOne, t.position⟩, ⟨.operator timesOperator, t.position⟩]
      else []
    else [t]
  | _ => [t]

def keptAll (unary : Bool) : List Token → List Token
  | [] => []
  | t :: ts => t.kept unary ++ keptAll t.awaitsOperand ts

variable {t : Token}

theorem awaitsOperand_punctuation {p : String} (h : t.lexeme = .punctuation p) :
    t.awaitsOperand = (p ∈ [openParen, openBrace, comma, semicolon] : Bool) := by
  simp only [awaitsOperand, h]

theorem awaitsOperand_operator {o : String} (h : t.lexeme = .operator o) :
    t.awaitsOperand = true := by
  simp only [awaitsOperand, h]

theorem awaitsOperand_keyword {w : String} (h : t.lexeme = .keyword w) :
    t.awaitsOperand = false := by
  simp only [awaitsOperand, h]

theorem awaitsOperand_leaf (h : t.lexeme.isLeaf) : t.awaitsOperand = false := by
  obtain ⟨x, p⟩ := t
  cases x with
  | string | number | identifier => rfl
  | _ => cases h

theorem kept_punctuation {p : String} (h : t.lexeme = .punctuation p) (unary : Bool) :
    t.kept unary = [] := by
  simp only [kept, h]

theorem kept_rule (h : t.lexeme = .keyword ruleWord) (unary : Bool) : t.kept unary = [] := by
  simp only [kept, h, if_true]

theorem kept_truth {value : Bool} (h : t.lexeme = .keyword (truthWord value)) (unary : Bool) :
    t.kept unary = [t] := by
  have hne : truthWord value ≠ ruleWord := by cases value <;> decide
  simp only [kept, h, hne, if_false]

theorem kept_binary {o : String} (h : t.lexeme = .operator o) : t.kept false = [t] := by
  simp [kept, h]

theorem kept_leaf (h : t.lexeme.isLeaf) (unary : Bool) : t.kept unary = [t] := by
  obtain ⟨x, p⟩ := t
  cases x with
  | string | number | identifier => rfl
  | _ => cases h

theorem position_kept {unary : Bool} {u : Token} (h : u ∈ t.kept unary) :
    u.position = t.position := by
  unfold kept at h
  split at h
  · cases h
  · split_ifs at h
    · cases h
    · rw [List.mem_singleton.1 h]
  · split_ifs at h
    · simp only [List.mem_cons, List.not_mem_nil, or_false] at h
      rcases h with rfl | rfl <;> rfl
    · cases h
    · rw [List.mem_singleton.1 h]
  · rw [List.mem_singleton.1 h]

end Token

open Token

/-- The tokens of the first list up to the second keep what the pieces say. Before a token and
behind them all, the flag tells whether an operand has to follow. -/
inductive Accounts : Bool → List Piece → List Token → Bool → List Token → Prop
  | refl (unary : Bool) (ts : List Token) : Accounts unary [] ts unary ts
  | token {unary after : Bool} {t : Token} {ps qs : List Piece} {ts rest : List Token} :
    Spells ps (t.kept unary) → Accounts t.awaitsOperand qs ts after rest →
    Accounts unary (ps ++ qs) (t :: ts) after rest

namespace Accounts

variable {unary mid after : Bool} {ps qs : List Piece} {ts us rest : List Token} {t : Token}

theorem trans (h : Accounts unary ps ts mid us) (h' : Accounts mid qs us after rest) :
    Accounts unary (ps ++ qs) ts after rest := by
  induction h with
  | refl => exact h'
  | token hp _ ih =>
    rw [List.append_assoc]
    exact .token hp (ih h')

theorem spells (h : Accounts unary ps ts after []) : Spells ps (keptAll unary ts) := by
  generalize hr : ([] : List Token) = rest at h
  induction h with
  | refl =>
    subst hr
    exact .nil
  | token hp _ ih => exact spells_append.2 ⟨_, _, rfl, hp, ih hr⟩

theorem silent (hk : t.kept unary = []) (h : Accounts t.awaitsOperand ps ts after rest) :
    Accounts unary ps (t :: ts) after rest := by
  have hp : Spells [] (t.kept unary) := by
    rw [hk]
    exact .nil
  exact .token hp h

theorem mark {p : String} (ht : t.lexeme = .punctuation p)
    (h : Accounts (p ∈ [openParen, openBrace, comma, semicolon] : Bool) ps ts after rest) :
    Accounts unary ps (t :: ts) after rest := by
  rw [← awaitsOperand_punctuation ht] at h
  exact silent (kept_punctuation ht unary) h

theorem same {p : Piece} (hk : t.kept unary = [t]) (hp : p.Fits t)
    (h : Accounts t.awaitsOperand ps ts after rest) :
    Accounts unary (p :: ps) (t :: ts) after rest := by
  have hs : Spells [p] (t.kept unary) := by
    rw [hk]
    exact .cons hp .nil
  exact .token hs h

theorem last {p : Piece} (hk : t.kept unary = [t]) (hp : p.Fits t)
    (ha : t.awaitsOperand = false) : Accounts unary [p] (t :: rest) false rest :=
  same hk hp (ha ▸ .refl _ _)

theorem enclosed {o c : Token} {start stop : String}
    (hstart : start ∈ [openParen, openBrace]) (hstop : stop ∈ stops)
    (ho : o.lexeme = .punctuation start) (hc : c.lexeme = .punctuation stop)
    (h : Accounts true ps ts after (c :: rest)) : Accounts unary ps (o :: ts) false rest := by
  have hopens : ∀ s ∈ [openParen, openBrace],
      (s ∈ [openParen, openBrace, comma, semicolon] : Bool) = true := by decide
  have hcloses : ∀ s ∈ stops,
      (s ∈ [openParen, openBrace, comma, semicolon] : Bool) = false := by decide
  have hclose : Accounts after [] (c :: rest) false rest := by
    refine mark hc ?_
    rw [hcloses stop hstop]
    exact .refl _ _
  refine mark ho ?_
  rw [hopens start hstart, ← List.append_nil ps]
  exact h.trans hclose

end Accounts

theorem Parser.Listed.accounts {α : Type} {item : α → List Token → List Token → Prop}
    {f : α → List Piece} {stop separator : String} {first : Bool} {xs : List α}
    {ts rest : List Token} (h : Listed item stop separator first xs ts rest)
    (hsep : separator ∈ separators)
    (hi : ∀ x us mid, item x us mid → Accounts true (f x) us false mid) :
    ∃ after, Accounts first (xs.flatMap f) ts after rest := by
  have hmark : ∀ s ∈ separators,
      (s ∈ [openParen, openBrace, comma, semicolon] : Bool) = true := by decide
  -- a separator is left out, and an operand has to follow it
  have behind {s : Token} {ps : List Piece} {us rest : List Token} {after : Bool}
      (hs : s.lexeme = .punctuation separator) (h : Accounts true ps us after rest) :
      Accounts false ps (s :: us) after rest :=
    .mark hs (by rwa [hmark separator hsep])
  induction h with
  | @stop first ts _ => exact ⟨first, .refl first ts⟩
  | @trailing s c rest _ hs _ => exact ⟨true, behind hs (.refl true _)⟩
  | first _ hx _ ih =>
    obtain ⟨after, hrest⟩ := ih
    exact ⟨after, (hi _ _ _ hx).trans hrest⟩
  | next _ hs _ hx _ ih =>
    obtain ⟨after, hrest⟩ := ih
    exact ⟨after, behind hs ((hi _ _ _ hx).trans hrest)⟩

namespace Parser

def Phrase.Accounted : Phrase → List Token → List Token → Prop
  | .program ns, ts, rest => ∃ after, Accounts true (Node.inOrderAll ns) ts after rest
  | .expression n, ts, rest | .operand n, ts, rest | .atom n, ts, rest =>
    Accounts true n.inOrder ts false rest
  | .bindings left _ n, ts, rest | .invocation left n, ts, rest =>
    ∃ more, n.inOrder = left.inOrder ++ more ∧ Accounts false more ts false rest

theorem identifier_accounts {t : Token} {ts rest : List Token} (h : Identifier t ts rest)
    (unary : Bool) : Accounts unary [.mark t.lexeme] ts false rest := by
  obtain ⟨rfl, hk⟩ := h
  obtain ⟨name, hname⟩ := identifier_of_kind hk
  have hleaf : t.lexeme.isLeaf := by rw [hname]; rfl
  exact .last (kept_leaf hleaf unary) rfl (awaitsOperand_leaf hleaf)

theorem Named.accounts {name : Option String} {ts rest : List Token} (h : Named name ts rest) :
    Accounts false (name.toList.map .identifier) ts false rest := by
  cases h with
  | anonymous => exact .refl false ts
  | @name t _ hk =>
    obtain ⟨name, hname⟩ := identifier_of_kind hk
    have ht : Accounts false [.mark t.lexeme] (t :: rest) false rest :=
      identifier_accounts ⟨rfl, hk⟩ false
    rw [hname] at ht ⊢
    exact ht

theorem sign_accounts {s : Token} (hs : isOperatorAmong signOperators s.lexeme) {n : Node}
    {ts rest : List Token} (h : Accounts true n.inOrder ts false rest) :
    Accounts true (applySign s n).inOrder (s :: ts) false rest := by
  obtain ⟨x, p⟩ := s
  cases x with
  | operator o =>
    have ho : o ∈ signOperators := of_decide_eq_true hs
    have hrest : Accounts (awaitsOperand ⟨.operator o, p⟩) n.inOrder ts false rest := h
    by_cases hneg : o = negateOperator
    · subst hneg
      have hspells : Spells [.leaf ⟨.number .minusOne, p⟩, .mark (.operator timesOperator)]
          (kept true ⟨.operator negateOperator, p⟩) := .cons rfl (.cons rfl .nil)
      have hsign : (applySign ⟨.operator negateOperator, p⟩ n).inOrder =
          [.leaf ⟨.number .minusOne, p⟩, .mark (.operator timesOperator)] ++ n.inOrder := rfl
      rw [hsign]
      exact .token hspells hrest
    · have hsign : applySign ⟨.operator o, p⟩ n = n := if_neg (by simpa using hneg)
      rw [hsign]
      exact .silent (by simp [kept, ho, hneg]) hrest
  | _ => cases hs

theorem Reads.accounted {phrase : Phrase} {ts rest : List Token} (h : Reads phrase ts rest) :
    phrase.Accounted ts rest := by
  induction h with
  | finish => exact ⟨true, .refl true []⟩
  | @last n ts _ ih =>
    refine ⟨false, ?_⟩
    rw [Node.inOrderAll, Node.inOrderAll, List.append_nil]
    exact ih
  | @statement n ns s ts rest _ hs _ ihn ihns =>
    obtain ⟨after, hns⟩ := ihns
    exact ⟨after, ihn.trans (.mark hs hns)⟩
  | expression _ _ _ ihd ihc ihn =>
    obtain ⟨more, hchain, hc⟩ := ihc
    obtain ⟨args, hcall, hn⟩ := ihn
    rw [Phrase.Accounted, hcall, hchain]
    exact (ihd.trans hc).trans hn
  | operand _ _ iha ihn =>
    obtain ⟨args, hcall, hn⟩ := ihn
    rw [Phrase.Accounted, hcall]
    exact iha.trans hn
  | uncalled | bound => exact ⟨[], (List.append_nil _).symm, .refl false _⟩
  | @call item o c callee args ts rest _ ho hc hl ih =>
    obtain ⟨after, hargs⟩ := hl.accounts (by decide) ih
    refine ⟨Node.inOrderAll args, rfl, ?_⟩
    rw [Node.inOrderAll_eq]
    exact .enclosed (by decide) (by decide) ho hc hargs
  | @pair t op power least left d right n ts m₁ m₂ rest ht _ _ _ _ _ ihd ihright ihn =>
    obtain ⟨more, hright, hmore⟩ := ihright
    obtain ⟨others, hn, hothers⟩ := ihn
    refine ⟨.mark (.operator op) :: (d.inOrder ++ more ++ others), ?_, ?_⟩
    · rw [hn, Node.inOrder_joined, hright, List.append_assoc, List.cons_append]
    · refine .same (kept_binary ht) ht ?_
      rw [awaitsOperand_operator ht]
      exact (Accounts.trans ihd hmore).trans hothers
  | group ho hc _ ih => exact .enclosed (by decide) (by decide) ho hc ih
  | block _ ho hc hl ih =>
    obtain ⟨after, hbody⟩ := hl.accounts (by decide) ih
    rw [Phrase.Accounted, Node.inOrder_sequence, Node.inOrderAll_eq]
    exact .enclosed (by decide) (by decide) ho hc hbody
  | @rule item r o c b d name params nodes ts us vs rest _ hr hname ho hc hps _ hb hd hl ih =>
    obtain ⟨_, names, _, hmap, _⟩ := names_of_listed hps
    obtain ⟨after, hparams⟩ := hps.accounts (by decide) fun _ _ _ h => identifier_accounts h true
    obtain ⟨after', hbody⟩ := hl.accounts (by decide) ih
    have hnames : params.flatMap (fun t => [Piece.mark t.lexeme]) = names.map .identifier := by
      calc params.flatMap (fun t => [Piece.mark t.lexeme])
        _ = (params.map (·.lexeme)).map .mark := by rw [List.map_map, List.map_eq_flatMap]; rfl
        _ = names.map .identifier := by rw [hmap, List.map_map]; rfl
    rw [hnames] at hparams
    rw [← Node.inOrderAll_eq, ← Node.inOrder_sequence] at hbody
    rw [Phrase.Accounted, texts_of_names hmap]
    refine .silent (kept_rule hr true) ?_
    rw [awaitsOperand_keyword hr]
    refine hname.accounts.trans (.trans (.enclosed (by decide) (by decide) ho hc hparams) ?_)
    exact .enclosed (by decide) (by decide) hb hd hbody
  | sign hs _ _ ih => exact sign_accounts hs ih
  | truth ht => exact .last (kept_truth ht true) ht (awaitsOperand_keyword ht)
  | leaf ht => exact .last (kept_leaf ht true) rfl (awaitsOperand_leaf ht)

end Parser

def Piece.leaf? : Piece → Option Token
  | mark _ => none
  | leaf t => some t

theorem Spells.leaves_sublist {ps : List Piece} {ts : List Token} (h : Spells ps ts) :
    (ps.filterMap Piece.leaf?).Sublist ts := by
  induction h with
  | nil => exact .slnil
  | @cons p t ps ts hp _ ih =>
    cases p with
    | mark x => exact ih.cons t
    | leaf u =>
      obtain rfl : t = u := hp
      exact ih.cons_cons t

namespace Node

theorem leavesAll_eq (ns : List Node) : leavesAll ns = ns.flatMap leaves := by
  induction ns with
  | nil => rfl
  | cons n ns ih => rw [leavesAll, ih, List.flatMap_cons]

theorem leaves_inOrderAll {ns : List Node}
    (h : ∀ n ∈ ns, n.inOrder.filterMap Piece.leaf? = n.leaves) :
    (inOrderAll ns).filterMap Piece.leaf? = leavesAll ns := by
  rw [inOrderAll_eq, leavesAll_eq, List.filterMap_flatMap]
  exact List.flatMap_congr h

theorem WellFormed.leaves_inOrder {n : Node} (h : n.WellFormed) :
    n.inOrder.filterMap Piece.leaf? = n.leaves := by
  induction h with
  | leaf | truth => rfl
  | block _ _ ih => exact leaves_inOrderAll ih
  | call _ _ ihf iha => rw [inOrder, List.filterMap_append, ihf, leaves_inOrderAll iha, leaves]
  | @rule name params body _ _ ih =>
    have hnames (names : List String) :
        (names.map Piece.identifier).filterMap Piece.leaf? = [] := by
      simp [Piece.identifier, Piece.leaf?]
    simp only [inOrder, List.filterMap_append, hnames, List.nil_append, ih, leaves]
  | binary _ _ _ _ ihl ihr | assign _ _ ihl ihr =>
    rw [inOrder, List.filterMap_append, ihl, List.filterMap_cons_none rfl, ihr, leaves]

theorem WellFormed.isLeaf_leaves {n : Node} (h : n.WellFormed) :
    ∀ t ∈ n.leaves, t.lexeme.isLeaf := by
  have all {ns : List Node} (h : ∀ n ∈ ns, ∀ t ∈ n.leaves, t.lexeme.isLeaf) :
      ∀ t ∈ leavesAll ns, t.lexeme.isLeaf := by
    intro t ht
    rw [leavesAll_eq] at ht
    obtain ⟨n, hn, ht⟩ := List.mem_flatMap.1 ht
    exact h n hn t ht
  induction h with
  | leaf ht => exact List.forall_mem_cons.2 ⟨ht, nofun⟩
  | truth => exact nofun
  | block _ _ ih => exact all ih
  | call _ _ ihf iha => exact List.forall_mem_append.2 ⟨ihf, all iha⟩
  | rule _ _ ih => exact ih
  | binary _ _ _ _ ihl ihr | assign _ _ ihl ihr => exact List.forall_mem_append.2 ⟨ihl, ihr⟩

end Node

namespace Token

theorem position_keptAll {unary : Bool} {ts : List Token} {u : Token}
    (h : u ∈ keptAll unary ts) : ∃ t ∈ ts, u.position = t.position := by
  induction ts generalizing unary with
  | nil => cases h
  | cons t ts ih =>
    rcases List.mem_append.1 h with h | h
    · exact ⟨t, List.mem_cons_self .., position_kept h⟩
    · obtain ⟨v, hv, hp⟩ := ih h
      exact ⟨v, List.mem_cons_of_mem t hv, hp⟩

theorem leaves_kept (R : Token → Token → Prop) (unary : Bool) (t : Token) :
    ((t.kept unary).filter (·.lexeme.isLeaf)).Pairwise R := by
  unfold kept
  split
  · exact .nil
  · split_ifs
    · exact .nil
    · exact (List.pairwise_singleton R t).filter _
  · split_ifs
    · exact List.pairwise_singleton R _
    · exact .nil
    · exact (List.pairwise_singleton R t).filter _
  · exact (List.pairwise_singleton R t).filter _

theorem leaves_keptAll {ts : List Token} (h : ts.Pairwise fun t u => t.position.Before u.position)
    (unary : Bool) : ((keptAll unary ts).filter (·.lexeme.isLeaf)).Pairwise
      fun t u => t.position.Before u.position := by
  induction h generalizing unary with
  | nil => exact .nil
  | @cons t ts ht _ ih =>
    rw [keptAll, List.filter_append, List.pairwise_append]
    refine ⟨leaves_kept _ unary t, ih _, fun u hu v hv => ?_⟩
    obtain ⟨w, hw, hvw⟩ := position_keptAll (List.mem_of_mem_filter hv)
    rw [position_kept (List.mem_of_mem_filter hu), hvw]
    exact ht w hw

end Token

theorem ordered_of_tokenize {source : List Char} {ts : List Token}
    (h : tokenize source = .ok ts) : ts.Pairwise fun t u => t.position.Before u.position := by
  have hscan := (Scan.ordered_ofCursor (.ofChars source)).2
  rwa [← Scan.ofChars, ofChars_of_tokenize h] at hscan

theorem reads_of_parse {source : List Char} {nodes : List Node} (h : parse source = .ok nodes) :
    ∃ ts, tokenize source = .ok ts ∧ Reads (.program nodes) ts [] := by
  have hagree := parse_agree source
  rw [h] at hagree
  cases hs : Parser.program nestingLimit (Scan.ofChars source) with
  | error e s =>
    rw [Scan.parse_error.2 ⟨s, hs⟩] at hagree
    exact hagree.elim
  | ok nodes' s =>
    have hnodes : nodes = nodes' := by
      rw [Scan.parse, hs] at hagree
      exact hagree
    have ht : tokenize source = .ok (Scan.ofChars source).tokens := by
      rw [tokenize, Scan.result, (program_ok_end hs).1]
    rw [ofChars_of_tokenize ht] at hs
    obtain ⟨rest, _, rfl, hread⟩ := statements_yields (level_yields _ _) _ _ _ _ _ hs
    exact ⟨_, ht, hnodes ▸ hread⟩

/-- Parsing loses no token, takes none twice and keeps their order. In reading order the trees of
a source hold what is kept of its tokens, leaves in their own places, so that the places of leaves
go up. -/
theorem parse_in_order {source : List Char} {nodes : List Node} (h : parse source = .ok nodes) :
    ∃ ts, tokenize source = .ok ts ∧
      Spells (Node.inOrderAll nodes) (Token.keptAll true ts) ∧
      (Node.leavesAll nodes).Pairwise fun t u => t.position.Before u.position := by
  obtain ⟨ts, ht, hread⟩ := reads_of_parse h
  obtain ⟨after, haccounts⟩ := hread.accounted
  have hwf : ∀ n ∈ nodes, n.WellFormed := hread.wellFormed
  refine ⟨ts, ht, haccounts.spells, ?_⟩
  have hsub := haccounts.spells.leaves_sublist
  rw [Node.leaves_inOrderAll fun n hn => (hwf n hn).leaves_inOrder] at hsub
  have hleaf : ∀ t ∈ Node.leavesAll nodes, t.lexeme.isLeaf := by
    intro t ht
    rw [Node.leavesAll_eq] at ht
    obtain ⟨n, hn, ht⟩ := List.mem_flatMap.1 ht
    exact (hwf n hn).isLeaf_leaves t ht
  have hfilter := hsub.filter (·.lexeme.isLeaf)
  rw [List.filter_eq_self.2 hleaf] at hfilter
  exact (Token.leaves_keptAll (ordered_of_tokenize ht) true).sublist hfilter

theorem parse_in_order_signs :
    ∃ nodes, parse ['-', 'a', ' ', '-', ' ', 'f', '(', '+', 'b', ')'] = .ok nodes ∧
      Spells (Node.inOrderAll nodes)
        [⟨.number .minusOne, ⟨1, 0⟩⟩, ⟨.operator "*", ⟨1, 0⟩⟩, ⟨.identifier "a", ⟨1, 1⟩⟩,
          ⟨.operator "-", ⟨1, 3⟩⟩, ⟨.identifier "f", ⟨1, 5⟩⟩, ⟨.identifier "b", ⟨1, 8⟩⟩] ∧
      (Node.leavesAll nodes).Pairwise fun t u => t.position.Before u.position := by
  have hok : (parse ['-', 'a', ' ', '-', ' ', 'f', '(', '+', 'b', ')']).isOk := by decide +kernel
  cases h : parse ['-', 'a', ' ', '-', ' ', 'f', '(', '+', 'b', ')'] with
  | error e => simp [h, Except.isOk, Except.toBool] at hok
  | ok nodes =>
    obtain ⟨ts, ht, hs, hp⟩ := parse_in_order h
    obtain rfl := Except.ok.inj ht
    exact ⟨nodes, rfl, hs, hp⟩

end RuleLang
