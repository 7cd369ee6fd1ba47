import RuleLang.Proofs.NextToken
import RuleLang.Proofs.ReadingOrder

/-!
Where trees come from. Everything in a tree that is read goes back to tokens of the source: a leaf
is one of its literals or names, the names of a rule are spelled in it, and the one number that is
not written there, minus one, stands to the left of a product in the place of a minus sign.
-/
namespace RuleLang

open RuleLang.Vocabulary RuleLang.Parser

def Number.NonNegative : Number → Prop
  | finite negative _ | infinite negative => negative = false

theorem Number.nonNegative_ofRounded (m : Option Magnitude) :
    (Number.ofRounded false m).NonNegative := by
  cases m <;> rfl

def IsName (s : String) : Prop := Word s.toList ∧ s ∉ keywords

/-- The lexemes that leaves are made of, apart from the factor that a minus sign brings. -/
def Lexeme.Plain : Lexeme → Prop
  | string _ => True
  | number x => x.NonNegative
  | identifier s => IsName s
  | _ => False

theorem Spelling.isName {x : List Char} {s : String} (h : Spelling x (.identifier s)) :
    IsName s := by
  cases h with
  | identifier hx hk => exact ⟨by rwa [String.toList_ofList], hk⟩

theorem Spelling.plain {x : List Char} {y : Lexeme} (h : Spelling x y) (hy : y.isLeaf) :
    y.Plain := by
  cases h with
  | string => trivial
  | whole | pointed => exact Number.nonNegative_ofRounded _
  | identifier hx hk => exact (Spelling.identifier hx hk).isName
  | keyword | punctuation | operator => cases hy

def NamedIn (ts : List Token) (s : String) : Prop :=
  IsName s ∧ ∃ t ∈ ts, t.lexeme = .identifier s

/-- The trees that grow from a list of tokens. -/
inductive Node.GrownFrom (ts : List Token) : Node → Prop
  | leaf {t : Token} : t ∈ ts → t.lexeme.Plain → GrownFrom ts (leaf t)
  | truth (value : Bool) : GrownFrom ts (truth value)
  | block {body : List Node} :
    body.length ≠ 1 → (∀ n ∈ body, GrownFrom ts n) → GrownFrom ts (block body)
  | call {callee : Node} {args : List Node} :
    GrownFrom ts callee → (∀ n ∈ args, GrownFrom ts n) → GrownFrom ts (call callee args)
  | rule {name : Option String} {params : List String} {body : Node} :
    (∀ s ∈ name, NamedIn ts s) → (∀ s ∈ params, NamedIn ts s) → params.Nodup →
    GrownFrom ts body → GrownFrom ts (rule name params body)
  | binary {op : String} {left right : Node} :
    (bindingPower? op).isSome → op ≠ assignOperator → GrownFrom ts left → GrownFrom ts right →
    GrownFrom ts (binary op left right)
  | assign {left right : Node} :
    GrownFrom ts left → GrownFrom ts right → GrownFrom ts (assign left right)
  | negated {sign : Token} {n : Node} :
    sign ∈ ts → sign.lexeme = .operator negateOperator → GrownFrom ts n →
    GrownFrom ts (binary timesOperator (leaf ⟨.number .minusOne, sign.position⟩) n)

namespace Node.GrownFrom

variable {ts : List Token}

theorem joined {op : String} {left right : Node} (hp : (bindingPower? op).isSome)
    (hl : left.GrownFrom ts) (hr : right.GrownFrom ts) : (joined op left right).GrownFrom ts := by
  unfold Node.joined
  split
  · exact .assign hl hr
  · next hne => exact .binary hp hne hl hr

theorem sequence {ns : List Node} (h : ∀ n ∈ ns, n.GrownFrom ts) :
    (sequence ns).GrownFrom ts := by
  match ns, h with
  | [], _ => exact .block (by decide) nofun
  | [n], h => exact h n (List.mem_singleton_self n)
  | n :: m :: ns, h => exact .block (by simp) h

theorem applySign {sign : Token} {n : Node} (hs : sign ∈ ts) (h : n.GrownFrom ts) :
    (applySign sign n).GrownFrom ts := by
  unfold Parser.applySign
  split
  · next hx => exact .negated hs hx h
  · exact h

end Node.GrownFrom

namespace Parser

theorem Reads.suffix {phrase : Phrase} {ts rest : List Token} (h : Reads phrase ts rest) :
    rest <:+ ts := by
  obtain ⟨used, rfl, -⟩ := h.derived
  exact List.suffix_append used rest

theorem Named.suffix {name : Option String} {ts rest : List Token} (h : Named name ts rest) :
    rest <:+ ts := by
  cases h with
  | anonymous => exact List.suffix_rfl
  | name => exact List.suffix_cons _ _

theorem Identifier.suffix {t : Token} {ts rest : List Token} (h : Identifier t ts rest) :
    rest <:+ ts := by
  rw [h.1]
  exact List.suffix_cons _ _

section Lists

variable {α : Type} {item : α → List Token → List Token → Prop} {stop separator : String}
  {first : Bool} {xs : List α} {ts rest : List Token}

theorem Listed.forall_within {P : α → Prop}
    (h : Listed item stop separator first xs ts rest)
    (hl : ∀ x us mid, item x us mid → mid <:+ us)
    (hi : ∀ x us mid, item x us mid → us <:+ ts → P x) : ∀ x ∈ xs, P x := by
  induction h with
  | stop | trailing => exact nofun
  | @first x xs ts mid rest _ hx _ ih =>
    refine List.forall_mem_cons.2 ⟨hi x ts mid hx List.suffix_rfl, ih fun y us mid' hy hs => ?_⟩
    exact hi y us mid' hy (hs.trans (hl x ts mid hx))
  | @next s x xs ts mid rest _ _ _ hx _ ih =>
    have hts : ts <:+ s :: ts := List.suffix_cons s ts
    refine List.forall_mem_cons.2 ⟨hi x ts mid hx hts, ih fun y us mid' hy hs => ?_⟩
    exact hi y us mid' hy ((hs.trans (hl x ts mid hx)).trans hts)

end Lists

def Phrase.GrownFrom (us : List Token) : Phrase → Prop
  | .program ns => ∀ n ∈ ns, n.GrownFrom us
  | .expression n | .operand n | .atom n => n.GrownFrom us
  | .bindings left _ n => left.GrownFrom us → n.GrownFrom us
  | .invocation callee n => callee.GrownFrom us → n.GrownFrom us

section Growth

variable {us : List Token} (spelled : ∀ t ∈ us, ∃ x, Spelling x t.lexeme)
include spelled

theorem namedIn_of_mem {t : Token} {s : String} (ht : t ∈ us) (hs : t.lexeme = .identifier s) :
    NamedIn us s := by
  obtain ⟨x, hx⟩ := spelled t ht
  rw [hs] at hx
  exact ⟨hx.isName, t, ht, hs⟩

theorem Named.grown {name : Option String} {ts rest : List Token} (h : Named name ts rest)
    (hts : ts <:+ us) : ∀ s ∈ name, NamedIn us s := by
  cases h with
  | anonymous => exact nofun
  | @name t _ hk =>
    obtain ⟨s, hs⟩ := identifier_of_kind hk
    rw [hs]
    intro s' hs'
    obtain rfl : s = s' := Option.some.inj hs'
    exact namedIn_of_mem spelled (hts.mem (List.mem_cons_self ..)) hs

theorem Listed.grown_names {params ts rest : List Token}
    (h : Listed Identifier closeParen comma true params ts rest) (hts : ts <:+ us) :
    ∀ s ∈ params.filterMap (·.lexeme.text?), NamedIn us s := by
  have hnamed : ∀ t ∈ params, ∀ s, t.lexeme.text? = some s → NamedIn us s := by
    refine h.forall_within (fun _ _ _ ht => ht.suffix) fun t vs mid ht hvs s hs => ?_
    obtain ⟨rfl, hk⟩ := ht
    obtain ⟨name, hname⟩ := identifier_of_kind hk
    obtain rfl : name = s := by
      rw [hname] at hs
      exact Option.some.inj hs
    exact namedIn_of_mem spelled (hts.mem (hvs.mem (List.mem_cons_self ..))) hname
  intro s hs
  obtain ⟨t, ht, hs⟩ := List.mem_filterMap.1 hs
  exact hnamed t ht s hs

theorem Reads.grown {phrase : Phrase} {ts rest : List Token} (h : Reads phrase ts rest)
    (hts : ts <:+ us) : phrase.GrownFrom us := by
  -- the items of a list stand in its tokens, so the induction hypothesis applies to each
  have listed {item : Node → List Token → List Token → Prop} {stop separator : String}
      {first : Bool} {nodes : List Node} {ts rest : List Token}
      (hl : Listed item stop separator first nodes ts rest)
      (hi : ∀ n ts rest, item n ts rest → Reads (.expression n) ts rest)
      (ih : ∀ n ts rest, item n ts rest → ts <:+ us → Phrase.GrownFrom us (.expression n))
      (hts : ts <:+ us) : ∀ n ∈ nodes, n.GrownFrom us :=
    hl.forall_within (fun _ _ _ hn => (hi _ _ _ hn).suffix) fun n vs mid hn hvs =>
      ih n vs mid hn (hvs.trans hts)
  have tail {t : Token} {ts : List Token} (h : t :: ts <:+ us) : ts <:+ us :=
    (List.suffix_cons t ts).trans h
  induction h with
  | finish => exact nofun
  | last _ ih => exact List.forall_mem_cons.2 ⟨ih hts, nofun⟩
  | statement hn _ _ ihn ihns =>
    exact List.forall_mem_cons.2 ⟨ihn hts, ihns (tail (hn.suffix.trans hts))⟩
  | expression hd hc _ ihd ihc ihn =>
    have hm₁ := hd.suffix.trans hts
    exact ihn (hc.suffix.trans hm₁) (ihc hm₁ (ihd hts))
  | operand ha _ iha ihn => exact ihn (ha.suffix.trans hts) (iha hts)
  | uncalled | bound => exact id
  | call hi _ _ hl ih => exact fun hf => .call hf (listed hl hi ih (tail hts))
  | pair _ hp _ hd hright _ ihd ihright ihn =>
    have hm₁ := hd.suffix.trans (tail hts)
    have hm₂ := hright.suffix.trans hm₁
    exact fun hleft => ihn hm₂ (.joined (by simp [hp]) hleft (ihright hm₁ (ihd (tail hts))))
  | group _ _ _ ih => exact ih (tail hts)
  | block hi _ _ hl ih => exact .sequence (listed hl hi ih (tail hts))
  | rule hi _ hname _ _ hps hf _ _ hl ih =>
    have hparams := tail (hname.suffix.trans (tail hts))
    have hbody := tail (tail ((hps.suffix fun _ _ _ h => h.suffix).trans hparams))
    refine .rule (hname.grown spelled (tail hts)) (hps.grown_names spelled hparams) ?_
      (.sequence (listed hl hi ih hbody))
    obtain ⟨_, names, _, hmap, _⟩ := names_of_listed hps
    rw [texts_of_names hmap]
    exact (nodup_names hmap).1 hf
  | sign _ _ _ ih => exact .applySign (hts.mem (List.mem_cons_self ..)) (ih (tail hts))
  | truth => exact .truth _
  | leaf ht =>
    have hmem := hts.mem (List.mem_cons_self ..)
    obtain ⟨x, hx⟩ := spelled _ hmem
    exact .leaf hmem (hx.plain ht)

end Growth

end Parser

theorem spelled_of_tokenize {source : List Char} {ts : List Token}
    (h : tokenize source = .ok ts) : ∀ t ∈ ts, ∃ x, Spelling x t.lexeme := by
  have hspelled := Scan.spelled_ofCursor (.ofChars source)
  rwa [← Scan.ofChars, ofChars_of_tokenize h] at hspelled

/-- Every tree of a source grows from its tokens. Blocks never hold a single statement, parameters
differ, rules and leaves bear names that are not reserved, and every number in the trees was read
from the source, where it has no sign, except the factors that stand for minus signs. -/
theorem parse_grown {source : List Char} {nodes : List Node} (h : parse source = .ok nodes) :
    ∃ ts, tokenize source = .ok ts ∧ ∀ n ∈ nodes, n.GrownFrom ts := by
  obtain ⟨ts, ht, hread⟩ := reads_of_parse h
  exact ⟨ts, ht, hread.grown (spelled_of_tokenize ht) List.suffix_rfl⟩

theorem parse_grown_rule :
    ∃ nodes ts, parse "rule f(x) \x7b-x; 2\x7d".toList = .ok nodes ∧
      tokenize "rule f(x) \x7b-x; 2\x7d".toList = .ok ts ∧ nodes.length = 1 ∧
      ∀ n ∈ nodes, n.GrownFrom ts := by
  have hok : (parse "rule f(x) \x7b-x; 2\x7d".toList).toOption.map List.length = some 1 := by
    decide +kernel
  cases h : parse "rule f(x) \x7b-x; 2\x7d".toList with
  | error e =>
    rw [h] at hok
    cases hok
  | ok nodes =>
    obtain ⟨ts, ht, hgrown⟩ := parse_grown h
    rw [h] at hok
    exact ⟨nodes, ts, rfl, ht, Option.some.inj hok, hgrown⟩

end RuleLang
