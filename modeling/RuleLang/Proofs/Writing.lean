import RuleLang.Proofs.Acceptance

/-!
Trees written as tokens. Operands and callees stand in parentheses, so that no token behind them
can be taken for a part of them, and the body of a rule stands in braces. What is written reads
back as the same trees, and the trees that are read are just those that can be written.
-/
namespace RuleLang

open RuleLang.Vocabulary RuleLang.Parser

/-- A part of a text to be written: a lexeme wherever it stands, or a token in its own place. -/
inductive Piece
  | mark (x : Lexeme)
  | leaf (t : Token)

namespace Piece

def Fits : Piece → Token → Prop
  | mark x, t => t.lexeme = x
  | leaf u, t => t = u

def punctuation (text : String) : Piece := mark (.punctuation text)

def identifier (name : String) : Piece := mark (.identifier name)

def token (place : Position) : Piece → Token
  | mark x => ⟨x, place⟩
  | leaf t => t

theorem fits_token (place : Position) (p : Piece) : p.Fits (p.token place) := by
  cases p <;> rfl

end Piece

def Spells (pieces : List Piece) (ts : List Token) : Prop := List.Forall₂ Piece.Fits pieces ts

def separated (separator : String) (parts : List (List Piece)) : List Piece :=
  [Piece.punctuation separator].intercalate parts

def enclosed (start stop : String) (inside : List Piece) : List Piece :=
  .punctuation start :: (inside ++ [.punctuation stop])

def infixed (op : String) (left right : List Piece) : List Piece :=
  enclosed openParen closeParen left ++
    .mark (.operator op) :: enclosed openParen closeParen right

namespace Node

/-- The trees of the language. Names may be any that an identifier can have. -/
inductive WellFormed : Node → Prop
  | leaf {t : Token} : t.lexeme.isLeaf → WellFormed (leaf t)
  | truth (value : Bool) : WellFormed (truth value)
  | block {body : List Node} :
    body.length ≠ 1 → (∀ n ∈ body, WellFormed n) → WellFormed (block body)
  | call {callee : Node} {args : List Node} :
    WellFormed callee → (∀ n ∈ args, WellFormed n) → WellFormed (call callee args)
  | rule {name : Option String} {params : List String} {body : Node} :
    params.Nodup → WellFormed body → WellFormed (rule name params body)
  | binary {op : String} {left right : Node} : (bindingPower? op).isSome → op ≠ assignOperator →
    WellFormed left → WellFormed right → WellFormed (binary op left right)
  | assign {left right : Node} : WellFormed left → WellFormed right → WellFormed (assign left right)

def braced : Node → List Piece → List Piece
  | block _, written => written
  | _, written => enclosed openBrace closeBrace written

mutual

def written : Node → List Piece
  | leaf t => [.leaf t]
  | truth value => [.mark (.keyword (truthWord value))]
  | binary op left right => infixed op (written left) (written right)
  | assign left right => infixed assignOperator (written left) (written right)
  | call callee args => enclosed openParen closeParen (written callee) ++
      enclosed openParen closeParen (separated comma (writtenEach args))
  | block body => enclosed openBrace closeBrace (separated semicolon (writtenEach body))
  | rule name params body => .mark (.keyword ruleWord) :: (name.toList.map .identifier ++
      (enclosed openParen closeParen (separated comma (params.map fun p => [.identifier p])) ++
        braced body (written body)))
  | blank => []

def writtenEach : List Node → List (List Piece)
  | [] => []
  | n :: ns => written n :: writtenEach ns

end

def writtenProgram (ns : List Node) : List Piece := separated semicolon (writtenEach ns)

def statements : Node → List Node
  | block body => body
  | n => [n]

theorem writtenEach_eq (ns : List Node) : writtenEach ns = ns.map written := by
  induction ns with
  | nil => rfl
  | cons n ns ih => rw [writtenEach, ih, List.map_cons]

theorem braced_written (n : Node) : n.braced n.written =
    enclosed openBrace closeBrace (separated semicolon (n.statements.map written)) := by
  cases n with
  | block body => rw [braced, written, writtenEach_eq, statements]
  | _ => simp [braced, statements, separated]

theorem WellFormed.sequence_statements {n : Node} (h : n.WellFormed) :
    sequence n.statements = n := by
  cases h with
  | @block body hl _ =>
    match body, hl with
    | [], _ => rfl
    | _ :: _ :: _, _ => rfl
  | _ => rfl

end Node

theorem spells_cons {p : Piece} {ps : List Piece} {ts : List Token} :
    Spells (p :: ps) ts ↔ ∃ t us, ts = t :: us ∧ p.Fits t ∧ Spells ps us := by
  rw [Spells, List.forall₂_cons_left_iff]
  constructor
  · rintro ⟨t, us, hp, hps, rfl⟩
    exact ⟨t, us, rfl, hp, hps⟩
  · rintro ⟨t, us, rfl, hp, hps⟩
    exact ⟨t, us, hp, hps, rfl⟩

theorem spells_append {ps qs : List Piece} {ts : List Token} :
    Spells (ps ++ qs) ts ↔ ∃ us vs, ts = us ++ vs ∧ Spells ps us ∧ Spells qs vs := by
  induction ps generalizing ts with
  | nil =>
    constructor
    · intro h
      exact ⟨[], ts, rfl, .nil, h⟩
    · rintro ⟨us, vs, rfl, hus, hvs⟩
      cases hus
      exact hvs
  | cons p ps ih =>
    simp only [List.cons_append, spells_cons, ih]
    constructor
    · rintro ⟨t, ts, rfl, hp, us, vs, rfl, hus, hvs⟩
      exact ⟨t :: us, vs, rfl, ⟨t, us, rfl, hp, hus⟩, hvs⟩
    · rintro ⟨_, vs, rfl, ⟨t, us, rfl, hp, hus⟩, hvs⟩
      exact ⟨t, us ++ vs, rfl, hp, us, vs, rfl, hus, hvs⟩

theorem spells_single {p : Piece} {ts : List Token} : Spells [p] ts ↔ ∃ t, ts = [t] ∧ p.Fits t := by
  simp only [spells_cons]
  constructor
  · rintro ⟨t, us, rfl, hp, hus⟩
    cases hus
    exact ⟨t, rfl, hp⟩
  · rintro ⟨t, rfl, hp⟩
    exact ⟨t, [], rfl, hp, .nil⟩

theorem spells_enclosed {start stop : String} {inside : List Piece} {ts : List Token} :
    Spells (enclosed start stop inside) ts ↔ ∃ o us c, ts = o :: (us ++ [c]) ∧
      o.lexeme = .punctuation start ∧ Spells inside us ∧ c.lexeme = .punctuation stop := by
  rw [enclosed, spells_cons]
  constructor
  · rintro ⟨o, _, rfl, ho, hs⟩
    obtain ⟨us, _, rfl, hus, hvs⟩ := spells_append.1 hs
    obtain ⟨c, rfl, hc⟩ := spells_single.1 hvs
    exact ⟨o, us, c, rfl, ho, hus, hc⟩
  · rintro ⟨o, us, c, rfl, ho, hus, hc⟩
    exact ⟨o, us ++ [c], rfl, ho, spells_append.2 ⟨us, [c], rfl, hus, spells_single.2 ⟨c, rfl, hc⟩⟩⟩

theorem separated_single (separator : String) (p : List Piece) : separated separator [p] = p :=
  List.intercalate_singleton

theorem spells_separated {separator : String} {p q : List Piece} {ps : List (List Piece)}
    {ts : List Token} :
    Spells (separated separator (p :: q :: ps)) ts ↔ ∃ us s vs, ts = us ++ s :: vs ∧
      Spells p us ∧ s.lexeme = .punctuation separator ∧
      Spells (separated separator (q :: ps)) vs := by
  simp only [separated, List.intercalate_cons_cons, List.append_assoc, List.singleton_append,
    spells_append, spells_cons]
  constructor
  · rintro ⟨us, _, rfl, hus, s, vs, rfl, hs, hvs⟩
    exact ⟨us, s, vs, rfl, hus, hs, hvs⟩
  · rintro ⟨us, s, vs, rfl, hus, hs, hvs⟩
    exact ⟨us, s :: vs, rfl, hus, s, vs, rfl, hs, hvs⟩

theorem spells_tokens (pieces : List Piece) (place : Position) :
    Spells pieces (pieces.map (·.token place)) := by
  induction pieces with
  | nil => exact .nil
  | cons p ps ih => exact .cons (p.fits_token place) ih

theorem names_of_spells {names : List String} {ts : List Token}
    (h : Spells (separated comma (names.map fun a => [.identifier a])) ts) : Names ts names := by
  induction names generalizing ts with
  | nil =>
    cases h
    exact .none
  | cons a names ih =>
    cases names with
    | nil =>
      obtain ⟨t, rfl, ht⟩ := spells_single.1 h
      exact .last ht
    | cons b names =>
      obtain ⟨us, s, vs, rfl, hus, hs, hvs⟩ := spells_separated.1 h
      obtain ⟨t, rfl, ht⟩ := spells_single.1 hus
      exact .more ht hs (ih hvs)

theorem named_of_spells {name : Option String} {ts : List Token}
    (h : Spells (name.toList.map .identifier) ts) (rest : List Token) :
    Named name (ts ++ rest) rest := by
  cases name with
  | none =>
    cases h
    exact .anonymous rest
  | some a =>
    obtain ⟨t, rfl, ht⟩ := spells_single.1 h
    have hx : t.lexeme = .identifier a := ht
    have hn : t.lexeme.text? = some a := by rw [hx]; rfl
    rw [← hn]
    exact .name (by rw [hx]; rfl)

theorem texts_of_names {params : List Token} {names : List String}
    (h : params.map (·.lexeme) = names.map .identifier) :
    params.filterMap (·.lexeme.text?) = names := by
  calc params.filterMap (·.lexeme.text?)
    _ = (params.map (·.lexeme)).filterMap Lexeme.text? := by rw [List.filterMap_map]; rfl
    _ = names.filterMap some := by rw [h, List.filterMap_map]; rfl
    _ = names := List.filterMap_some

namespace Node

/-- However the tree is written, and whatever closes it, it is read as an expression. -/
def Rereads (n : Node) : Prop := ∀ ts rest, Spells n.written ts → Closes rest →
  Reads (.expression n) (ts ++ rest) rest

theorem expression_of_operand {n : Node} {ts rest : List Token} (hr : Closes rest)
    (h : Reads (.operand n) ts rest) : Reads (.expression n) ts rest :=
  .expression h (.bound (stops_of_none hr.no_operator)) (.uncalled hr.not_open)

theorem expression_of_atom {n : Node} {ts rest : List Token} (hr : Closes rest)
    (h : Reads (.atom n) ts rest) : Reads (.expression n) ts rest :=
  expression_of_operand hr (.operand h (.uncalled hr.not_open))

namespace Rereads

theorem opens {n : Node} (h : n.Rereads) {ts : List Token} (hs : Spells n.written ts) :
    Opens ts := by
  obtain ⟨used, hused, hd⟩ := (h ts [] hs nofun).derived
  obtain rfl : ts = used := by simpa using hused
  exact hd.opens (.inl rfl)

theorem group {n : Node} (h : n.Rereads) {ts : List Token}
    (hs : Spells (enclosed openParen closeParen n.written) ts) (rest : List Token) :
    Reads (.atom n) (ts ++ rest) rest := by
  obtain ⟨o, us, c, rfl, ho, hus, hc⟩ := spells_enclosed.1 hs
  rw [List.cons_append, List.append_assoc]
  exact .group ho hc (h us (c :: rest) hus (closes_stop hc (by decide) rest))

theorem listed {ns : List Node} (h : ∀ n ∈ ns, n.Rereads) {stop separator : String}
    (hstop : stop ∈ stops) (hsep : separator ∈ separators) {c : Token}
    (hc : c.lexeme = .punctuation stop) (rest : List Token) {ts : List Token}
    (hs : Spells (separated separator (ns.map written)) ts) :
    Listed (fun n ts rest => Reads (.expression n) ts rest) stop separator true ns
      (ts ++ c :: rest) (c :: rest) := by
  induction ns generalizing ts with
  | nil =>
    cases hs
    exact .stop (ends_cons.2 hc)
  | cons n ns ih =>
    have hn := h n (List.mem_cons_self ..)
    cases ns with
    | nil =>
      rw [List.map_singleton, separated_single] at hs
      have hopens := (hn.opens hs).append (c :: rest)
      exact .first (hopens.not_stop hstop) (hn ts _ hs (closes_stop hc hstop rest))
        (.stop (ends_cons.2 hc))
    | cons m ns =>
      obtain ⟨us, s, vs, rfl, hus, hsx, hvs⟩ := spells_separated.1 hs
      have hmore := ih (fun k hk => h k (List.mem_cons_of_mem n hk)) hvs
      have hread := hn us (s :: (vs ++ c :: rest)) hus (closes_separator hsx hsep _)
      rw [List.append_assoc, List.cons_append]
      refine .first (((hn.opens hus).append _).not_stop hstop) hread ?_
      exact hmore.after_separator (by simp) hsx (stop_ne_separator hstop hsep)

theorem infixed {op : String} {left right : Node} (hp : (bindingPower? op).isSome)
    (hl : left.Rereads) (hr : right.Rereads) {ts rest : List Token}
    (hs : Spells (infixed op left.written right.written) ts) (hrest : Closes rest) :
    Reads (.expression (joined op left right)) (ts ++ rest) rest := by
  obtain ⟨us, _, rfl, hus, hmore⟩ := spells_append.1 hs
  obtain ⟨t, vs, rfl, ht, hvs⟩ := spells_cons.1 hmore
  obtain ⟨power, hpower⟩ := Option.isSome_iff_exists.1 hp
  have hx : t.lexeme = .operator op := ht
  have hnot : isMark openParen (t :: (vs ++ rest)).head? = false := not_isMark (by simp [hx])
  have hleft : Reads (.operand left) (us ++ t :: (vs ++ rest)) (t :: (vs ++ rest)) :=
    .operand (hl.group hus _) (.uncalled hnot)
  have hright : Reads (.operand right) (vs ++ rest) rest :=
    .operand (hr.group hvs rest) (.uncalled hrest.not_open)
  have hstops (least : Int) : Stops least rest := stops_of_none hrest.no_operator
  have hchain : Reads (.bindings left 0 (joined op left right)) (t :: (vs ++ rest)) rest :=
    .pair hx hpower (bindingPower?_pos hpower) hright (.bound (hstops power)) (.bound (hstops 0))
  rw [List.append_assoc, List.cons_append]
  exact .expression hleft hchain (.uncalled hrest.not_open)

theorem call {callee : Node} {args : List Node} (hf : callee.Rereads)
    (ha : ∀ n ∈ args, n.Rereads) : (call callee args).Rereads := by
  intro ts rest hs hrest
  rw [written, writtenEach_eq] at hs
  obtain ⟨us, vs, rfl, hus, hvs⟩ := spells_append.1 hs
  obtain ⟨o, ws, c, rfl, ho, hws, hc⟩ := spells_enclosed.1 hvs
  have hlist := listed ha (by decide) (by decide) hc rest hws
  refine expression_of_operand hrest ?_
  rw [List.append_assoc, List.cons_append, List.append_assoc]
  exact .operand (hf.group hus _) (.call (fun _ _ _ h => h) ho hc hlist)

theorem block {body : List Node} (hl : body.length ≠ 1) (hb : ∀ n ∈ body, n.Rereads) :
    (block body).Rereads := by
  intro ts rest hs hrest
  rw [written, writtenEach_eq] at hs
  obtain ⟨o, us, c, rfl, ho, hus, hc⟩ := spells_enclosed.1 hs
  have hlist := listed hb (by decide) (by decide) hc rest hus
  have hseq : sequence body = .block body := by
    match body, hl with
    | [], _ => rfl
    | _ :: _ :: _, _ => rfl
  rw [List.cons_append, List.append_assoc, ← hseq]
  exact expression_of_atom hrest (.block (fun _ _ _ h => h) ho hc hlist)

theorem rule {name : Option String} {params : List String} {body : Node} (hp : params.Nodup)
    (hw : body.WellFormed) (hb : ∀ n ∈ body.statements, n.Rereads) :
    (rule name params body).Rereads := by
  intro ts rest hs hrest
  rw [written, braced_written] at hs
  obtain ⟨r, _, rfl, hr, hs⟩ := spells_cons.1 hs
  obtain ⟨title, _, rfl, htitle, hs⟩ := spells_append.1 hs
  obtain ⟨us, vs, rfl, hus, hvs⟩ := spells_append.1 hs
  obtain ⟨o, names, c, rfl, ho, hnames, hc⟩ := spells_enclosed.1 hus
  obtain ⟨b, ws, d, rfl, hb', hws, hd⟩ := spells_enclosed.1 hvs
  have hlist := listed hb (by decide) (by decide) hd rest hws
  obtain ⟨ps, hps, hmap⟩ := (names_of_spells hnames).listed hc (b :: (ws ++ d :: rest))
  have hatom := Reads.rule (fun _ _ _ h => h) hr (named_of_spells htitle _) ho hc hps
    ((nodup_names hmap).2 hp) hb' hd hlist
  rw [texts_of_names hmap, hw.sequence_statements] at hatom
  have hsplit : r :: (title ++ (o :: (names ++ [c]) ++ b :: (ws ++ [d]))) ++ rest =
      r :: (title ++ o :: (names ++ c :: b :: (ws ++ d :: rest))) := by simp
  rw [hsplit]
  exact expression_of_atom hrest hatom

end Rereads

theorem WellFormed.rereads {n : Node} (h : n.WellFormed) :
    n.Rereads ∧ ∀ m ∈ n.statements, m.Rereads := by
  have alone {n : Node} (hn : n.Rereads) (hs : n.statements = [n]) :
      n.Rereads ∧ ∀ m ∈ n.statements, m.Rereads := by
    refine ⟨hn, fun m hm => ?_⟩
    rw [hs] at hm
    rwa [List.mem_singleton.1 hm]
  induction h with
  | @leaf t ht =>
    refine alone (fun ts rest hs hrest => ?_) rfl
    obtain ⟨u, rfl, rfl⟩ := spells_single.1 hs
    exact expression_of_atom hrest (.leaf ht)
  | truth value =>
    refine alone (fun ts rest hs hrest => ?_) rfl
    obtain ⟨t, rfl, ht⟩ := spells_single.1 hs
    exact expression_of_atom hrest (.truth ht)
  | block hl _ ih => exact ⟨.block hl fun n hn => (ih n hn).1, fun n hn => (ih n hn).1⟩
  | call _ _ ihf iha => exact alone (.call ihf.1 fun n hn => (iha n hn).1) rfl
  | rule hp hw ih => exact alone (.rule hp hw ih.2) rfl
  | @binary op left right hp hne _ _ ihl ihr =>
    have hj : joined op left right = .binary op left right := if_neg hne
    refine alone (fun ts rest hs hrest => ?_) rfl
    exact hj ▸ Rereads.infixed hp ihl.1 ihr.1 hs hrest
  | @assign left right _ _ ihl ihr =>
    have hp : (bindingPower? assignOperator).isSome := rfl
    exact alone (fun ts rest hs hrest => Rereads.infixed hp ihl.1 ihr.1 hs hrest) rfl

theorem reads_writtenProgram {ns : List Node} (h : ∀ n ∈ ns, n.WellFormed) {ts : List Token}
    (hs : Spells (writtenProgram ns) ts) : Reads (.program ns) ts [] := by
  rw [writtenProgram, writtenEach_eq] at hs
  induction ns generalizing ts with
  | nil =>
    cases hs
    exact .finish
  | cons n ns ih =>
    have hn := (h n (List.mem_cons_self ..)).rereads.1
    cases ns with
    | nil =>
      rw [List.map_singleton, separated_single] at hs
      have hread := hn ts [] hs nofun
      rw [List.append_nil] at hread
      exact .last hread
    | cons m ns =>
      obtain ⟨us, s, vs, rfl, hus, hsx, hvs⟩ := spells_separated.1 hs
      have hread := hn us (s :: vs) hus (closes_separator hsx (by decide) vs)
      exact .statement hread hsx (ih (fun k hk => h k (List.mem_cons_of_mem n hk)) hvs)

end Node

/-- Every list of well-formed trees can be written, and however it is written, wherever its marks
stand, reading gives back the same trees, unless constructs nest too deeply, which takes as many
tokens as the limit. -/
theorem program_written {ns : List Node} (h : ∀ n ∈ ns, n.WellFormed) (limit : Nat)
    (stop : Position) :
    (∃ ts, Spells (Node.writtenProgram ns) ts) ∧
    ∀ ts, Spells (Node.writtenProgram ns) ts →
      Parser.program limit (Scan.ofTokens ts stop) = .ok ns (Scan.ofTokens [] stop) ∨
        ∃ e s, Parser.program limit (Scan.ofTokens ts stop) = .error e s ∧ e.IsTooDeep ∧
          limit ≤ ts.length := by
  refine ⟨⟨_, spells_tokens _ stop⟩, fun ts hs => ?_⟩
  have hret : (Phrase.program ns).Returned (ts.length + 1) limit ts [] :=
    (Node.reads_writtenProgram h hs).returned (Nat.lt_succ_self _)
  exact hret (ts.length + 1) (Nat.lt_succ_self _) stop

theorem program_written_call :
    let a : Node := .leaf ⟨.identifier "a", ⟨3, 5⟩⟩
    let n : Node := .call (.rule none ["a"] (.block [a, .block []])) [.assign a (.truth true)]
    n.WellFormed ∧ Parser.program Parser.nestingLimit
        (Scan.ofTokens ((Node.writtenProgram [n]).map (·.token .start)) .start) =
      .ok [n] (Scan.ofTokens [] .start) := by
  intro a n
  have ha : a.WellFormed := .leaf rfl
  have hbody : (Node.block [a, .block []]).WellFormed := by
    refine .block (by decide) (List.forall_mem_cons.2 ⟨ha, ?_⟩)
    exact List.forall_mem_cons.2 ⟨.block (by decide) nofun, nofun⟩
  have hn : n.WellFormed := .call (.rule (by decide) hbody)
    (List.forall_mem_cons.2 ⟨.assign ha (.truth true), nofun⟩)
  have hns : ∀ m ∈ [n], m.WellFormed := List.forall_mem_cons.2 ⟨hn, nofun⟩
  have hread := (program_written hns nestingLimit .start).2 _ (spells_tokens _ .start)
  refine ⟨hn, hread.resolve_right fun ⟨_, _, _, _, hle⟩ => ?_⟩
  exact absurd hle (by decide)

namespace Node

theorem WellFormed.joined {op : String} {left right : Node} (hp : (bindingPower? op).isSome)
    (hl : left.WellFormed) (hr : right.WellFormed) : (joined op left right).WellFormed := by
  unfold Node.joined
  split
  · exact .assign hl hr
  · next hne => exact .binary hp hne hl hr

theorem WellFormed.sequence {ns : List Node} (h : ∀ n ∈ ns, n.WellFormed) :
    (sequence ns).WellFormed := by
  match ns, h with
  | [], _ => exact .block (by decide) nofun
  | [n], h => exact h n (List.mem_singleton_self n)
  | n :: m :: ns, h => exact .block (by simp) h

theorem WellFormed.applySign (s : Token) {n : Node} (h : n.WellFormed) :
    (applySign s n).WellFormed := by
  unfold Parser.applySign
  split
  · exact .binary rfl (by decide) (.leaf rfl) h
  · exact h

end Node

namespace Parser

theorem Listed.forall {α : Type} {item : α → List Token → List Token → Prop} {P : α → Prop}
    {stop separator : String} {first : Bool} {xs : List α} {ts rest : List Token}
    (h : Listed item stop separator first xs ts rest) (hi : ∀ x us mid, item x us mid → P x) :
    ∀ x ∈ xs, P x := by
  induction h with
  | stop | trailing => exact nofun
  | first _ hx _ ih => exact List.forall_mem_cons.2 ⟨hi _ _ _ hx, ih⟩
  | next _ _ _ hx _ ih => exact List.forall_mem_cons.2 ⟨hi _ _ _ hx, ih⟩

def Phrase.WellFormed : Phrase → Prop
  | .program ns => ∀ n ∈ ns, n.WellFormed
  | .expression n | .operand n | .atom n => n.WellFormed
  | .bindings left _ n => left.WellFormed → n.WellFormed
  | .invocation callee n => callee.WellFormed → n.WellFormed

theorem Reads.wellFormed {phrase : Phrase} {ts rest : List Token} (h : Reads phrase ts rest) :
    phrase.WellFormed := by
  induction h with
  | finish => exact nofun
  | last _ ih => exact List.forall_mem_cons.2 ⟨ih, nofun⟩
  | statement _ _ _ ihn ihns => exact List.forall_mem_cons.2 ⟨ihn, ihns⟩
  | expression _ _ _ ihd ihc ihn => exact ihn (ihc ihd)
  | operand _ _ iha ihn => exact ihn iha
  | uncalled | bound => exact id
  | call _ _ _ hl ih => exact fun hf => .call hf (hl.forall ih)
  | pair _ hp _ _ _ _ ihd ihright ihn =>
    exact fun hleft => ihn (.joined (by simp [hp]) hleft (ihright ihd))
  | group _ _ _ ih => exact ih
  | block _ _ _ hl ih => exact .sequence (hl.forall ih)
  | rule _ _ _ _ _ hps hf _ _ hl ih =>
    obtain ⟨_, names, _, hmap, _⟩ := names_of_listed hps
    refine .rule ?_ (.sequence (hl.forall ih))
    rw [texts_of_names hmap]
    exact (nodup_names hmap).1 hf
  | sign _ _ _ ih => exact Node.WellFormed.applySign _ ih
  | truth _ => exact .truth _
  | leaf ht => exact .leaf ht

end Parser

end RuleLang
