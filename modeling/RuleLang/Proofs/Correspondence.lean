import RuleLang.Proofs.Outcome

/-!
Correspondences between tokens. Corresponding tokens have lexemes of the same shape: the same
keyword, operator or mark, names that correspond, or any two literals of a kind. That is all the
grammar tests, except that it compares names with one another, so names correspond one to one.
-/
namespace RuleLang

inductive Lexeme.Matches (name : String → String → Prop) : Lexeme → Lexeme → Prop
  | string (s s' : String) : Matches name (.string s) (.string s')
  | number (x x' : Number) : Matches name (.number x) (.number x')
  | identifier {a b : String} : name a b → Matches name (.identifier a) (.identifier b)
  | keyword (w : String) : Matches name (.keyword w) (.keyword w)
  | operator (o : String) : Matches name (.operator o) (.operator o)
  | punctuation (p : String) : Matches name (.punctuation p) (.punctuation p)

/-- How the tokens and the names of one source correspond to those of another. -/
structure Correspondence where
  token : Token → Token → Prop
  name : String → String → Prop
  lexeme {t u : Token} : token t u → t.lexeme.Matches name u.lexeme
  minusOne {t u : Token} : token t u →
    token ⟨.number .minusOne, t.position⟩ ⟨.number .minusOne, u.position⟩
  sameName {a b c d : String} : name a b → name c d → (a = c ↔ b = d)

inductive Cause.Matches (c : Correspondence) : Cause → Cause → Prop
  | same (x : Cause) : Matches c x x
  | unexpected {t u : Token} : c.token t u →
    Matches c (.unexpected t.lexeme) (.unexpected u.lexeme)

namespace Node

mutual

/-- Nodes of the same shape, with tokens and names that correspond. -/
def Matches (c : Correspondence) : Node → Node → Prop
  | leaf t, leaf u => c.token t u
  | block xs, block ys => MatchesAll c xs ys
  | call f xs, call g ys => Matches c f g ∧ MatchesAll c xs ys
  | rule a ps x, rule b qs y =>
    Option.Rel c.name a b ∧ List.Forall₂ c.name ps qs ∧ Matches c x y
  | binary o a b, binary p x y => o = p ∧ Matches c a x ∧ Matches c b y
  | assign a b, assign x y => Matches c a x ∧ Matches c b y
  | truth a, truth b => a = b
  | blank, blank => True
  | _, _ => False

def MatchesAll (c : Correspondence) : List Node → List Node → Prop
  | [], [] => True
  | x :: xs, y :: ys => Matches c x y ∧ MatchesAll c xs ys
  | _, _ => False

end

theorem matchesAll_iff {c : Correspondence} {xs ys : List Node} :
    MatchesAll c xs ys ↔ List.Forall₂ (Matches c) xs ys := by
  induction xs generalizing ys with
  | nil => cases ys <;> simp [MatchesAll]
  | cons x xs ih => cases ys <;> simp [MatchesAll, ih]

theorem matches_joined {c : Correspondence} (op : String) {a b x y : Node}
    (ha : Matches c a x) (hb : Matches c b y) :
    Matches c (joined op a b) (joined op x y) := by
  unfold joined
  split <;> simp [Matches, ha, hb]

theorem matches_sequence {c : Correspondence} {xs ys : List Node}
    (h : List.Forall₂ (Matches c) xs ys) : Matches c (sequence xs) (sequence ys) := by
  cases h with
  | nil => simp [sequence, Matches, MatchesAll]
  | cons hx hr =>
    cases hr with
    | nil => exact hx
    | cons hy hr =>
      exact matchesAll_iff.2 (.cons hx (.cons hy hr))

section Leaves

variable {c : Correspondence}

mutual

theorem leaves_matches : ∀ {n m : Node}, Matches c n m → List.Forall₂ c.token n.leaves m.leaves
  | leaf _, leaf _, h => .cons h .nil
  | block _, block _, h => leavesAll_matches h
  | call _ _, call _ _, h => List.rel_append (leaves_matches h.1) (leavesAll_matches h.2)
  | rule _ _ x, rule _ _ y, h => by
    rw [leaves, leaves]
    exact leaves_matches h.2.2
  | binary _ _ _, binary _ _ _, h => List.rel_append (leaves_matches h.2.1) (leaves_matches h.2.2)
  | assign _ _, assign _ _, h => List.rel_append (leaves_matches h.1) (leaves_matches h.2)
  | truth _, truth _, _ => .nil
  | blank, blank, _ => .nil

theorem leavesAll_matches : ∀ {xs ys : List Node}, MatchesAll c xs ys →
    List.Forall₂ c.token (leavesAll xs) (leavesAll ys)
  | [], [], _ => .nil
  | _ :: _, _ :: _, h => List.rel_append (leaves_matches h.1) (leavesAll_matches h.2)

end

mutual

theorem matches_self (hname : ∀ a, c.name a a) :
    ∀ n : Node, (∀ t ∈ n.leaves, c.token t t) → n.Matches c n
  | leaf t, h => h t (List.mem_singleton_self t)
  | block xs, h => matchesAll_self hname xs h
  | call f xs, h => by
    obtain ⟨hf, hxs⟩ := List.forall_mem_append.1 h
    exact ⟨matches_self hname f hf, matchesAll_self hname xs hxs⟩
  | rule name params body, h => by
    have hrule : Option.Rel c.name name name := by
      cases name with
      | none => exact .none
      | some name => exact .some (hname name)
    exact ⟨hrule, List.forall₂_same.2 fun a _ => hname a, matches_self hname body h⟩
  | binary _ a b, h => by
    obtain ⟨ha, hb⟩ := List.forall_mem_append.1 h
    exact ⟨rfl, matches_self hname a ha, matches_self hname b hb⟩
  | assign a b, h => by
    obtain ⟨ha, hb⟩ := List.forall_mem_append.1 h
    exact ⟨matches_self hname a ha, matches_self hname b hb⟩
  | truth _, _ => rfl
  | blank, _ => trivial

theorem matchesAll_self (hname : ∀ a, c.name a a) :
    ∀ ns : List Node, (∀ t ∈ leavesAll ns, c.token t t) → MatchesAll c ns ns
  | [], _ => trivial
  | n :: ns, h => by
    obtain ⟨hn, hns⟩ := List.forall_mem_append.1 h
    exact ⟨matches_self hname n hn, matchesAll_self hname ns hns⟩

end

end Leaves

end Node

namespace Lexeme.Matches

variable {name : String → String → Prop} {x y : Lexeme}

theorem kind_eq (h : Matches name x y) : x.kind = y.kind := by
  cases h <;> rfl

theorem isLeaf_eq (h : Matches name x y) : x.isLeaf = y.isLeaf := by
  cases h <;> rfl

theorem punctuation_iff (h : Matches name x y) (p : String) :
    x = .punctuation p ↔ y = .punctuation p := by
  cases h <;> simp

theorem keyword_iff (h : Matches name x y) (w : String) : x = .keyword w ↔ y = .keyword w := by
  cases h <;> simp

theorem operator_iff (h : Matches name x y) (o : String) : x = .operator o ↔ y = .operator o := by
  cases h <;> simp

theorem isOperatorAmong_eq (h : Matches name x y) (choices : List String) :
    Parser.isOperatorAmong choices x = Parser.isOperatorAmong choices y := by
  cases h <;> rfl

theorem takesSign_eq (h : Matches name x y) : Parser.takesSign x = Parser.takesSign y := by
  cases h <;> simp [Parser.takesSign]

theorem opening_eq (h : Matches name x y) : Parser.Opening.of x = Parser.Opening.of y := by
  simp only [Parser.Opening.of, h.punctuation_iff, h.keyword_iff, h.isOperatorAmong_eq,
    h.isLeaf_eq]

theorem identifier_names (h : Matches name x y) (hx : x.kind = .identifier) :
    ∃ a b, x = .identifier a ∧ y = .identifier b ∧ name a b := by
  cases h with
  | @identifier a b hab => exact ⟨a, b, rfl, rfl, hab⟩
  | _ => cases hx

theorem text?_rel (h : Matches name x y) (hx : x.kind = .identifier) :
    Option.Rel name x.text? y.text? := by
  obtain ⟨a, b, rfl, rfl, hab⟩ := h.identifier_names hx
  exact .some hab

theorem refl (h : ∀ a, name a a) (x : Lexeme) : Matches name x x := by
  cases x with
  | string s => exact .string s s
  | number x => exact .number x x
  | identifier a => exact .identifier (h a)
  | keyword w => exact .keyword w
  | operator o => exact .operator o
  | punctuation p => exact .punctuation p

end Lexeme.Matches

def Correspondence.within (places : Position → Prop) : Correspondence where
  token t u := t = u ∧ places t.position
  name := Eq
  lexeme := by
    intro t u h
    obtain ⟨rfl, _⟩ := h
    exact .refl (fun _ => rfl) _
  minusOne := by
    intro t u h
    obtain ⟨rfl, hp⟩ := h
    exact ⟨rfl, hp⟩
  sameName := by
    intro a b c d hab hcd
    rw [hab, hcd]

theorem Correspondence.within_rel {places : Position → Prop} {t : Option Token}
    (h : ∀ x ∈ t, places x.position) : Option.Rel (within places).token t t := by
  cases t with
  | none => exact .none
  | some t => exact .some ⟨rfl, h t rfl⟩

theorem Cause.eq_of_lexeme {c : Correspondence} {x y : Cause}
    (htoken : ∀ {t u : Token}, c.token t u → t.lexeme = u.lexeme) (h : x.Matches c y) : x = y := by
  cases h with
  | same x => rfl
  | unexpected h => rw [htoken h]

theorem Cause.eq_of_matches {places : Position → Prop} {x y : Cause}
    (h : x.Matches (.within places) y) : x = y :=
  eq_of_lexeme (fun ht => by rw [ht.1]) h

theorem eq_of_rel_eq {α : Type} {a b : Option α} (h : Option.Rel Eq a b) : a = b := by
  cases h with
  | none => rfl
  | some h => rw [h]

theorem eq_of_forall_eq {α : Type} {xs ys : List α} (h : List.Forall₂ Eq xs ys) : xs = ys := by
  rwa [List.forall₂_eq_eq_eq] at h

namespace Node

variable {places : Position → Prop}

mutual

theorem eq_of_matches : ∀ {a b : Node}, Matches (.within places) a b → a = b
  | leaf _, leaf _, h => congrArg leaf h.1
  | block _, block _, h => congrArg block (eq_of_matchesAll h)
  | call _ _, call _ _, h => congrArg₂ call (eq_of_matches h.1) (eq_of_matchesAll h.2)
  | rule _ ps _, rule _ qs _, h => by
    have hp : ps = qs := eq_of_forall_eq h.2.1
    rw [eq_of_rel_eq h.1, hp, eq_of_matches h.2.2]
  | binary _ _ _, binary _ _ _, h => by
    obtain ⟨rfl, ha, hb⟩ := h
    rw [eq_of_matches ha, eq_of_matches hb]
  | assign _ _, assign _ _, h => congrArg₂ assign (eq_of_matches h.1) (eq_of_matches h.2)
  | truth _, truth _, h => congrArg truth h
  | blank, blank, _ => rfl

theorem eq_of_matchesAll : ∀ {xs ys : List Node}, MatchesAll (.within places) xs ys → xs = ys
  | [], [], _ => rfl
  | _ :: _, _ :: _, h => congrArg₂ List.cons (eq_of_matches h.1) (eq_of_matchesAll h.2)

end

end Node

end RuleLang
