import RuleLang.Proofs.Framing
import RuleLang.Proofs.Laziness

/-!
What has been read stays read. A reader that has come to the end of its tokens would have answered
alike, and taken the same tokens, if more had stood there, as long as they do not go on with what
it was reading. So each production answers alike whatever takes the place of the tokens it leaves,
if that looks as they do from in front of them.
-/
namespace RuleLang.Parser

open Vocabulary

variable {α β : Type}

def Extends (takes : Bool) (p : Parser Scan α) (s : Scan) (a : α) (left : Scan) : Prop :=
  ∃ used, (takes = true → used ≠ []) ∧ s = left.behind used ∧
    ∀ other : Scan, SameView left.tokens other.tokens → other.tokens ≠ [] →
      p (other.behind used) = .ok a other

/-- Whenever the reader succeeds with the given token next, what it has read stays read. -/
def PersistsFrom (head : Option Token) (takes : Bool) (p : Parser Scan α) : Prop :=
  ∀ s a left, s.tokens.head? = head → s.failure = none → p s = .ok a left →
    Extends takes p s a left

def Persists (takes : Bool) (p : Parser Scan α) : Prop := ∀ head, PersistsFrom head takes p

def Replays (p : Parser Scan α) : Prop :=
  ∀ s a left, s.failure = none → p s = .ok a left → ∃ used, s = left.behind used ∧
    ∀ other : Scan, SameHead left.tokens other.tokens → p (other.behind used) = .ok a other

theorem Extends.failure {takes : Bool} {p : Parser Scan α} {s left : Scan} {a : α}
    (h : Extends takes p s a left) (hs : s.failure = none) : left.failure = none := by
  obtain ⟨used, -, rfl, -⟩ := h
  exact hs

theorem behind_ne_nil {s : Scan} (used : List Token) (h : s.tokens ≠ []) :
    (s.behind used).tokens ≠ [] := List.append_ne_nil_of_right_ne_nil used h

section Rules

variable {takes takes' : Bool} {head : Option Token} {p : Parser Scan α}
  {f : α → Parser Scan β}

theorem PersistsFrom.weaken (h : PersistsFrom head true p) : PersistsFrom head takes p := by
  intro s a left hh hs hp
  obtain ⟨used, hne, hu, hother⟩ := h s a left hh hs hp
  exact ⟨used, fun _ => hne rfl, hu, hother⟩

theorem Persists.pure (a : α) : Persists false (pure a : Parser Scan α) := by
  intro head s b left _ _ hp
  obtain ⟨rfl, rfl⟩ := EStateM.Result.ok.inj hp
  exact ⟨[], nofun, rfl, fun other _ _ => rfl⟩

theorem Persists.never (h : ∀ s a left, p s ≠ .ok a left) : Persists takes p :=
  fun _ s a left _ _ hp => absurd hp (h s a left)

theorem Persists.fail (cause : Cause) : Persists takes (Parser.fail cause : Parser Scan α) :=
  .never fun _ _ _ h => nomatch h

theorem PersistsFrom.bind (hp : PersistsFrom head takes p) (hf : ∀ a, Persists takes' (f a)) :
    PersistsFrom head (takes || takes') (p >>= f) := by
  intro s b left hh hs hb
  obtain ⟨a, mid, ha, hrest⟩ := bind_ok.1 hb
  have hx := hp s a mid hh hs ha
  obtain ⟨second, hne', rfl, hsecond⟩ := hf a _ mid b left rfl (hx.failure hs) hrest
  obtain ⟨first, hne, rfl, hfirst⟩ := hx
  refine ⟨first ++ second, fun h => ?_, (Scan.behind_append first second left).symm, ?_⟩
  · rcases Bool.or_eq_true_iff.1 h with h | h
    · exact List.append_ne_nil_of_left_ne_nil (hne h) second
    · exact List.append_ne_nil_of_right_ne_nil first (hne' h)
  · intro other hv ho
    have hmid := hfirst (other.behind second) (hv.append second) (behind_ne_nil second ho)
    rw [Scan.behind_append, bind_of_ok hmid]
    exact hsecond other hv ho

theorem Persists.bind (hp : Persists takes p) (hf : ∀ a, Persists takes' (f a)) :
    Persists (takes || takes') (p >>= f) := fun head => (hp head).bind hf

theorem Replays.bind (hp : Replays p) (hf : ∀ a, Persists true (f a)) :
    Persists true (p >>= f) := by
  intro head s b left _ hs hb
  obtain ⟨a, mid, ha, hrest⟩ := bind_ok.1 hb
  obtain ⟨first, rfl, hfirst⟩ := hp s a mid hs ha
  obtain ⟨second, hne, rfl, hsecond⟩ := hf a _ mid b left rfl hs hrest
  refine ⟨first ++ second, fun _ => List.append_ne_nil_of_right_ne_nil first (hne rfl),
    (Scan.behind_append first second left).symm, fun other hv ho => ?_⟩
  have hmid := hfirst (other.behind second) (sameHead_append (hne rfl) _ _)
  rw [Scan.behind_append, bind_of_ok hmid]
  exact hsecond other hv ho

theorem Replays.of_lockstep {V : α → α → Prop}
    (h : Lockstep (.within fun _ => True) Scan Scan false V p p) (hV : ∀ a b, V a b → a = b) :
    Replays p := by
  intro s a left _ hp
  have hsober := h.sober (s := s) (fun _ _ => trivial) (absurd · Bool.false_ne_true)
  rw [hp] at hsober
  obtain ⟨_, used, rfl⟩ := hsober
  refine ⟨used, rfl, fun other ho => ?_⟩
  have hreplay := h.replay used left (fun _ _ => trivial) (absurd · Bool.false_ne_true)
  rw [hp] at hreplay
  obtain ⟨b, hab, hq⟩ := hreplay rfl other ho
  rwa [hV a b hab]

theorem look_of_finished {f : Option Token → Parser Scan α} {s : Scan} (hs : s.failure = none) :
    (peek >>= f) s = f s.tokens.head? s := by
  obtain ⟨ts, stop, e⟩ := s
  obtain rfl : e = none := hs
  cases ts <;> rfl

theorem Persists.look {f : Option Token → Parser Scan α}
    (hview : ∀ t u, isMark openParen t = isMark openParen u → operatorText? t = operatorText? u →
      f t = f u)
    (hf : ∀ t, PersistsFrom t takes (f t)) : Persists takes (peek >>= f) := by
  intro head s a left hh hs hp
  rw [look_of_finished hs] at hp
  obtain ⟨used, hne, rfl, hother⟩ := hf _ s a left rfl hs hp
  refine ⟨used, hne, rfl, fun other hv ho => ?_⟩
  obtain ⟨u, us, hu⟩ := List.exists_cons_of_ne_nil (behind_ne_nil used ho)
  have hhead : (other.behind used).tokens.head? = some u := by rw [hu]; rfl
  have hsame := hv.append used
  change SameView (left.behind used).tokens (other.behind used).tokens at hsame
  rw [look_of_head hhead, ← hhead, ← hview _ _ hsame.1 hsame.2]
  exact hother other hv ho

theorem Persists.lookTaking {f : Option Token → Parser Scan α}
    (hf : ∀ t, PersistsFrom t true (f t)) : Persists true (peek >>= f) := by
  intro head s a left hh hs hp
  rw [look_of_finished hs] at hp
  obtain ⟨used, hne, rfl, hother⟩ := hf _ s a left rfl hs hp
  refine ⟨used, hne, rfl, fun other hv ho => ?_⟩
  obtain ⟨t, used, rfl⟩ := List.exists_cons_of_ne_nil (hne rfl)
  exact hother other hv ho

theorem PersistsFrom.next {t : Token} {f : Option Token → Parser Scan α}
    (hf : Persists takes (f (some t))) : PersistsFrom (some t) true (next >>= f) := by
  intro s a left hh hs hp
  obtain ⟨_ | ⟨u, ts⟩, stop, e⟩ := s
  · cases hh
  · obtain rfl : u = t := Option.some.inj hh
    obtain ⟨used, -, hu, hother⟩ := hf _ ⟨ts, stop, e⟩ a left rfl hs hp
    obtain ⟨rfl, rfl, rfl⟩ := Scan.mk.inj hu
    exact ⟨u :: used, fun _ => List.cons_ne_nil u used, rfl, hother⟩

end Rules

theorem expect_persists (wanted : Lexeme → Bool) (cause : Cause) :
    Persists true (expect wanted cause) := by
  apply Persists.lookTaking
  intro t
  cases t with
  | none => exact Persists.fail cause none
  | some t =>
    dsimp only
    split
    · exact .next (.pure t)
    · exact Persists.fail cause (some t)

theorem mark_persists (text : String) : Persists true (expectPunctuation text) :=
  expect_persists _ _

theorem delimited_persists {item : Parser Scan α} {V : α → α → Prop}
    (hi : Lockstep (.within fun _ => True) Scan Scan false V item item)
    (hV : ∀ a b, V a b → a = b) (rounds : Nat) (start stop separator : String) :
    Persists true (delimited rounds start stop separator item) := by
  have hitems : Replays (items stop separator item rounds true) :=
    .of_lockstep (items_lockstep stop separator hi (Nat.le_refl rounds) true)
      fun xs ys h => eq_of_forall_eq (h.imp hV)
  exact (mark_persists start).bind fun _ => hitems.bind fun xs =>
    (mark_persists stop).bind fun _ => .pure xs

theorem bindings_persists {operand : Parser Scan Node} (ho : Persists true operand)
    (rounds : Nat) (left : Node) (least : Int) :
    Persists false (bindings operand rounds left least) := by
  induction rounds generalizing left least with
  | zero => exact .never fun _ _ _ h => nomatch h
  | succ rounds ih =>
    rw [bindings_succ]
    apply Persists.look
    · intro t u _ h
      simp only [h]
    · intro t
      cases hop : operatorText? t with
      | none => exact Persists.pure left t
      | some op =>
        obtain ⟨t, rfl, -⟩ := operatorText?_some hop
        cases hp : bindingPower? op with
        | none => simpa only [hp] using Persists.fail (.unknownOperator op) (some t)
        | some power =>
          simp only [hp]
          split
          · exact Persists.pure left (some t)
          · have hmore : Persists true (do
                let d ← operand
                let right ← bindings operand rounds d power
                bindings operand rounds (Node.joined op left right) least) :=
              ho.bind fun d => (ih d power).bind fun right => ih _ least
            exact PersistsFrom.weaken (.next hmore)

variable {inner : Level Scan}

structure Level.Persists (inner : Level Scan) : Prop where
  operand : Parser.Persists true inner.operand
  expression : Parser.Persists true inner.expression

theorem level_matches (rounds depth : Nat) : Level.Lockstep (.within fun _ => True)
    (level rounds depth : Level Scan) (level rounds depth : Level Scan) :=
  level_lockstep (Nat.le_refl rounds) depth

section Level

variable (hi : inner.Persists) (hl : inner.Lockstep (.within fun _ => True) inner) (rounds : Nat)
include hl

theorem invocation_persists (node : Node) :
    Persists false (invocation rounds inner.expression node) := by
  rw [invocation_eq]
  apply Persists.look
  · intro t u h _
    simp only [h]
  · intro t
    split
    · have hcall := delimited_persists hl.expression (fun _ _ => Node.eq_of_matches) rounds
        openParen closeParen comma
      exact ((hcall.bind fun args => .pure _) t).weaken
    · exact Persists.pure node t

theorem block_persists : Persists true (block rounds inner) :=
  (delimited_persists hl.expression (fun _ _ => Node.eq_of_matches) rounds openBrace closeBrace
    semicolon).bind fun _ => .pure _

omit hl in
theorem parameters_persists : Persists true (parameters rounds : Parser Scan (List String)) := by
  rw [parameters_eq]
  apply Persists.look
  · intro t u h _
    simp only [h]
  · intro t
    split
    · have hparams := delimited_persists expectIdentifier_lockstep (fun _ _ h => h.1.1) rounds
        openParen closeParen comma
      refine hparams.bind (fun params => ?_ : ∀ params, Persists false (declared params)) t
      unfold declared
      split
      · exact .never fun _ _ _ h => nomatch h
      · exact .pure _
    · exact Persists.fail .missingParameters t

theorem declaration_persists (t : Token) :
    PersistsFrom (some t) true (declaration rounds inner) := by
  have hname : Replays (name? : Parser Scan (Option String)) :=
    .of_lockstep name?_lockstep fun _ _ => eq_of_rel_eq
  have hbody (name : Option String) (params : List String) : Persists true (do
      let t ← peek
      if isMark openBrace t then
        let body ← block rounds inner
        return .rule name params body
      else Parser.fail .missingBody : Parser Scan Node) := by
    apply Persists.lookTaking
    intro t
    split
    · exact (block_persists hl rounds).bind (fun body => .pure _) t
    · exact Persists.fail .missingBody t
  rw [declaration_eq]
  refine .next (?_ : Persists true _)
  exact hname.bind fun name => (parameters_persists rounds).bind fun params => hbody name params

include hi

omit hl in
theorem group_persists : Persists true (group inner) :=
  (mark_persists openParen).bind fun _ => hi.expression.bind fun node =>
    (mark_persists closeParen).bind fun _ => .pure node

omit hl in
theorem signed_persists : Persists true (signed inner) := by
  rw [signed_eq]
  refine (expect_persists _ _).bind (fun sign => ?_ : ∀ sign, Persists true _)
  apply Persists.lookTaking
  intro t
  split
  · exact hi.operand.bind (fun node => .pure _) t
  · exact Persists.fail .expectedSigned t

theorem atom_persists : Persists true (atom rounds inner) := by
  have hunexpected (t : Option Token) : PersistsFrom t true (unexpected : Parser Scan Node) := by
    refine Persists.lookTaking (fun t => ?_) t
    cases t <;> exact Persists.fail _ _
  apply Persists.lookTaking
  intro t
  cases t with
  | none => exact hunexpected none
  | some t =>
    dsimp only
    cases Opening.of t.lexeme with
    | group => exact group_persists hi _
    | braces => exact block_persists hl rounds _
    | declaration => exact declaration_persists hl rounds t
    | sign => exact signed_persists hi _
    | truth value => exact .next (.pure _)
    | leaf => exact .next (.pure _)
    | none => exact hunexpected _

theorem operand_persists : Persists true (operand rounds inner) :=
  (atom_persists hi hl rounds).bind fun node => invocation_persists hl rounds node

end Level

theorem level_persists (rounds depth : Nat) : (level rounds depth).Persists := by
  induction depth with
  | zero => exact ⟨.fail _, .fail _⟩
  | succ depth ih =>
    have hl := level_matches rounds depth
    have ho := operand_persists ih hl rounds
    refine ⟨ho, ho.bind (fun d => ?_ : ∀ d, Persists false _)⟩
    exact (bindings_persists ho rounds d 0).bind fun chain => invocation_persists hl rounds chain

end RuleLang.Parser
