import Mathlib.Data.Set.Function
import RuleLang.Proofs.Fairness
import RuleLang.Proofs.Laziness

/-!
Renaming. Two texts that differ in their layout, in the values of their literals, and in their
names, renamed one to one, are answered alike: with trees of the same shape over tokens that
correspond, or with refusals for the same reason in corresponding places.
-/
namespace RuleLang

open RuleLang.Parser

/-- Tokens of the same shape one by one, the names of the left list renamed one to one. -/
structure Renamed (rename : String → String) (ts us : List Token) : Prop where
  shape : List.Forall₂ (fun t u => t.lexeme.Matches (fun a b => b = rename a) u.lexeme) ts us
  injective : Set.InjOn rename {a | ∃ t ∈ ts, t.lexeme = .identifier a}

/-- The reason for a refusal after a renaming; only repeated parameters are named in one. -/
def Cause.renamed (rename : String → String) : Cause → Cause
  | duplicateParameter a => duplicateParameter (rename a)
  | x => x

theorem Cause.renamed_of_ne {rename : String → String} {x : Cause}
    (h : ∀ a, x ≠ .duplicateParameter a) : x.renamed rename = x := by
  cases x with
  | duplicateParameter a => exact absurd rfl (h a)
  | _ => rfl

theorem Lexeme.Matches.mono {R S : String → String → Prop} {x y : Lexeme} (h : x.Matches R y)
    (hS : ∀ a b, x = .identifier a → R a b → S a b) : x.Matches S y := by
  cases h with
  | string s s' => exact .string s s'
  | number x x' => exact .number x x'
  | identifier hab => exact .identifier (hS _ _ rfl hab)
  | keyword w => exact .keyword w
  | operator o => exact .operator o
  | punctuation p => exact .punctuation p

theorem Lexeme.Matches.eq_of_opening {R : String → String → Prop} {x y : Lexeme}
    (h : x.Matches R y) (hx : Opening.of x = .none) : x = y := by
  cases h with
  | string | number | identifier =>
    simp [Opening.of, isOperatorAmong, Lexeme.isLeaf] at hx
  | keyword | operator | punctuation => rfl

namespace Renamed

variable {rename : String → String} {ts us : List Token}

def correspondence (h : Renamed rename ts us) : Correspondence where
  token t u := ∃ x y, (x, y) ∈ ts.zip us ∧ (t = x ∧ u = y ∨
    t = ⟨.number .minusOne, x.position⟩ ∧ u = ⟨.number .minusOne, y.position⟩)
  name a b := (∃ t ∈ ts, t.lexeme = .identifier a) ∧ b = rename a
  lexeme := by
    rintro t u ⟨x, y, hmem, ⟨rfl, rfl⟩ | ⟨rfl, rfl⟩⟩
    · have hx := (List.forall₂_iff_zip.1 h.shape).2 hmem
      exact hx.mono fun a b ha hb => ⟨⟨t, (List.of_mem_zip hmem).1, ha⟩, hb⟩
    · exact .number _ _
  minusOne := by
    rintro t u ⟨x, y, hmem, ⟨rfl, rfl⟩ | ⟨rfl, rfl⟩⟩
    · exact ⟨t, u, hmem, .inr ⟨rfl, rfl⟩⟩
    · exact ⟨x, y, hmem, .inr ⟨rfl, rfl⟩⟩
  sameName := by
    rintro a b c d ⟨ha, rfl⟩ ⟨hc, rfl⟩
    exact (h.injective.eq_iff ha hc).symm

inductive Counterparts (ts us : List Token) (stop stop' : Position) : Position → Position → Prop
  | token {x y : Token} (h : (x, y) ∈ ts.zip us) :
      Counterparts ts us stop stop' x.position y.position
  | stop : Counterparts ts us stop stop' stop stop'

/-- Trees of the same shape over corresponding tokens, refusals in corresponding places for the
same reason, or two refusals to read more deeply. -/
inductive Answers (h : Renamed rename ts us) (stop stop' : Position) :
    Except Failure (List Node) → Except Failure (List Node) → Prop
  | accepted {nodes nodes' : List Node} (hn : Node.MatchesAll h.correspondence nodes nodes') :
      Answers h stop stop' (.ok nodes) (.ok nodes')
  | refused {x y : SyntaxError} (hp : Counterparts ts us stop stop' x.position y.position)
      (hc : y.cause = x.cause.renamed rename) :
      Answers h stop stop' (.error (.malformed x)) (.error (.malformed y))
  | tooDeep {e f : Failure} (he : e.IsTooDeep) (hf : f.IsTooDeep) :
      Answers h stop stop' (.error e) (.error f)

variable {h : Renamed rename ts us} {stop stop' : Position}

theorem counterparts_token {t u : Token} (htu : h.correspondence.token t u) :
    Counterparts ts us stop stop' t.position u.position := by
  obtain ⟨x, y, hmem, hxy⟩ := htu
  have hplace : Counterparts ts us stop stop' x.position y.position := .token hmem
  rcases hxy with ⟨rfl, rfl⟩ | ⟨rfl, rfl⟩
  · exact hplace
  · exact hplace

theorem cause_renamed {x y : Cause} (hxy : x.Matches h.correspondence y)
    (hd : ∀ a, x ≠ .duplicateParameter a) (hx : x.Fair) : y = x.renamed rename := by
  rw [Cause.renamed_of_ne hd]
  cases hxy with
  | same x => rfl
  | unexpected htu => rw [(h.correspondence.lexeme htu).eq_of_opening hx]

def simulation (h : Renamed rename ts us) (stop stop' : Position) :
    Simulation h.correspondence Scan Scan where
  state _ s t := ∃ xs ys, List.Forall₂ h.correspondence.token xs ys ∧
    s = .ofTokens xs stop ∧ t = .ofTokens ys stop'
  stopped e f _ _ := e.IsTooDeep ∧ f.IsTooDeep ∨ ∃ x y, e = .malformed x ∧ f = .malformed y ∧
    Counterparts ts us stop stop' x.position y.position ∧
    (x.cause.Fair → y.cause = x.cause.renamed rename)
  forget hst := hst
  peek := by
    rintro _ _ _ ⟨xs, ys, hxy, rfl, rfl⟩
    cases hxy with
    | nil => exact ⟨.none, [], [], .nil, rfl, rfl⟩
    | cons hx hr => exact ⟨.some hx, _, _, .cons hx hr, rfl, rfl⟩
  next := by
    rintro _ _ _ ⟨xs, ys, hxy, rfl, rfl⟩
    cases hxy with
    | nil => exact ⟨.none, [], [], .nil, rfl, rfl⟩
    | cons hx hr => exact ⟨.some hx, _, _, hr, rfl, rfl⟩
  fail := by
    rintro x y _ _ ⟨xs, ys, hxy, rfl, rfl⟩ hcause hd
    have hplace : Counterparts ts us stop stop' (Scan.ofTokens xs stop).here
        (Scan.ofTokens ys stop').here := by
      cases hxy with
      | nil => exact .stop
      | cons hx _ => exact counterparts_token hx
    exact .inr ⟨_, _, rfl, rfl, hplace, cause_renamed hcause hd⟩
  refuse := by
    rintro x y a b _ _ _ hxy ⟨_, rfl⟩
    exact .inr ⟨_, _, rfl, rfl, counterparts_token hxy, fun _ => rfl⟩
  tooDeep _ := .inl ⟨rfl, rfl⟩

theorem tokens_correspond (h : Renamed rename ts us) :
    List.Forall₂ h.correspondence.token ts us :=
  List.forall₂_iff_zip.2 ⟨h.shape.length_eq, fun hmem => ⟨_, _, hmem, .inl ⟨rfl, rfl⟩⟩⟩

theorem scan_answers (h : Renamed rename ts us) (stop stop' : Position) :
    h.Answers stop stop' (Scan.ofTokens ts stop).parse (Scan.ofTokens us stop').parse := by
  have hle : (Scan.ofTokens ts stop).tokens.length + 1 ≤
      (Scan.ofTokens us stop').tokens.length + 1 := Nat.succ_le_succ h.shape.length_eq.le
  have ha : Agree _ _ _ (program nestingLimit (Scan.ofTokens ts stop))
      (program nestingLimit (Scan.ofTokens us stop')) :=
    (h.simulation stop stop').run (program_lockstep hle nestingLimit)
      ⟨ts, us, h.tokens_correspond, rfl, rfl⟩
  have hx (s : Scan) : program nestingLimit (Scan.ofTokens ts stop) ≠ .error .exhausted s :=
    program_not_exhausted (Scan.failure_ofTokens ts stop .exhausted) nestingLimit
  unfold Scan.parse
  rcases ha.outcomes hx with ⟨nodes, s, nodes', t, hs, ht, hnodes, _⟩ | ⟨e, s, f, t, hs, ht, hef⟩
  · rw [hs, ht]
    exact .accepted (Node.matchesAll_iff.2 hnodes)
  · have hfair := program_fair nestingLimit (Scan.ofTokens ts stop) rfl
    rw [hs] at hfair
    rw [hs, ht]
    rcases hef with ⟨he, hf⟩ | ⟨x, y, rfl, rfl, hplace, hcause⟩
    · exact .tooDeep he hf
    · exact .refused hplace (hcause hfair)

theorem answers_of_same {x x' y y' : Except Failure (List Node)} (hx : SameAnswer x x')
    (hy : SameAnswer y y') (ha : h.Answers stop stop' x' y') : h.Answers stop stop' x y := by
  cases ha with
  | accepted hn =>
    obtain rfl := hx.ok_right
    obtain rfl := hy.ok_right
    exact .accepted hn
  | tooDeep he hf =>
    obtain ⟨e, rfl, hsame⟩ := hx.error_right
    obtain ⟨f, rfl, hsame'⟩ := hy.error_right
    exact .tooDeep (hsame.tooDeep_iff.2 he) (hsame'.tooDeep_iff.2 hf)
  | @refused x y hp hc =>
    obtain ⟨e, rfl, hsame⟩ := hx.error_right
    obtain ⟨f, rfl, hsame'⟩ := hy.error_right
    have hdeep : y.cause = .nestingTooDeep ↔ x.cause = .nestingTooDeep := by
      rw [hc]
      cases x.cause <;> simp [Cause.renamed]
    rcases hsame with rfl | ⟨he, hx⟩
    · rcases hsame' with rfl | ⟨hf, hy⟩
      · exact .refused hp hc
      · exact .tooDeep (hdeep.1 hy) hf
    · exact .tooDeep he (hsame'.tooDeep_iff.2 (hdeep.2 hx))

end Renamed

/-- Layout, literals and names do not matter. -/
theorem parse_renamed {source source' : List Char} {ts us : List Token}
    {rename : String → String} (ht : tokenize source = .ok ts) (hu : tokenize source' = .ok us)
    (h : Renamed rename ts us) :
    h.Answers (Position.start.afterAll source) (Position.start.afterAll source') (parse source)
      (parse source') := by
  refine Renamed.answers_of_same (parse_agree source) (parse_agree source') ?_
  rw [ofChars_of_tokenize ht, ofChars_of_tokenize hu]
  exact h.scan_answers _ _

theorem parse_renamed_exchange :
    let rename : String → String := fun a => if a = "f" then "x" else "f"
    let source := ['f', '(', '"', '"', ',', 'x', ')']
    let source' := ['x', ' ', '(', '"', 'b', '"', ',', ' ', 'f', ')']
    let ts : List Token := [⟨.identifier "f", ⟨1, 0⟩⟩, ⟨.punctuation "(", ⟨1, 1⟩⟩,
      ⟨.string "", ⟨1, 2⟩⟩, ⟨.punctuation ",", ⟨1, 4⟩⟩, ⟨.identifier "x", ⟨1, 5⟩⟩,
      ⟨.punctuation ")", ⟨1, 6⟩⟩]
    let us : List Token := [⟨.identifier "x", ⟨1, 0⟩⟩, ⟨.punctuation "(", ⟨1, 2⟩⟩,
      ⟨.string "b", ⟨1, 3⟩⟩, ⟨.punctuation ",", ⟨1, 6⟩⟩, ⟨.identifier "f", ⟨1, 8⟩⟩,
      ⟨.punctuation ")", ⟨1, 9⟩⟩]
    ∃ h : Renamed rename ts us, (parse source).isOk ∧
      h.Answers ⟨1, 7⟩ ⟨1, 10⟩ (parse source) (parse source') := by
  intro rename source source' ts us
  have ht : tokenize source = .ok ts := by decide +kernel
  have hu : tokenize source' = .ok us := by decide +kernel
  have hshape : List.Forall₂ (fun t u => t.lexeme.Matches (fun a b => b = rename a) u.lexeme)
      ts us :=
    .cons (.identifier rfl) (.cons (.punctuation "(") (.cons (.string "" "b")
      (.cons (.punctuation ",") (.cons (.identifier rfl) (.cons (.punctuation ")") .nil)))))
  have hnames : ∀ a, (∃ t ∈ ts, t.lexeme = .identifier a) → a = "f" ∨ a = "x" := by
    simp [ts, eq_comm]
  have hrename : Set.InjOn rename {a | ∃ t ∈ ts, t.lexeme = .identifier a} := by
    intro a ha b hb hab
    rcases hnames a ha with rfl | rfl <;> rcases hnames b hb with rfl | rfl
    · rfl
    · exact absurd hab (by decide)
    · exact absurd hab (by decide)
    · rfl
  have hstop : Position.start.afterAll source = ⟨1, 7⟩ := by decide
  have hstop' : Position.start.afterAll source' = ⟨1, 10⟩ := by decide
  have h : Renamed rename ts us := ⟨hshape, hrename⟩
  have hanswers := parse_renamed ht hu h
  rw [hstop, hstop'] at hanswers
  exact ⟨h, by decide +kernel, hanswers⟩

end RuleLang
