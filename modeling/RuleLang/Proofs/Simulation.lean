import RuleLang.Proofs.Lockstep

/-!
Simulations between sources. If two sources answer alike whatever is asked of them, readers in
lockstep answer alike on them, with related values, related failures and related states behind.
-/
namespace RuleLang

open RuleLang.Parser

/-- Outcomes of the same kind with related contents. A left reader out of rounds promises
nothing. -/
def Agree {σ τ α β : Type} (V : α → β → Prop) (S : σ → τ → Prop)
    (E : Failure → Failure → σ → τ → Prop) :
    EStateM.Result Failure σ α → EStateM.Result Failure τ β → Prop
  | .ok a s, .ok b t => V a b ∧ S s t
  | .error e s, .error f t => e = .exhausted ∨ E e f s t
  | .error e _, .ok _ _ => e = .exhausted
  | .ok _ _, .error _ _ => False

theorem Agree.outcomes {σ τ α β : Type} {V : α → β → Prop} {S : σ → τ → Prop}
    {E : Failure → Failure → σ → τ → Prop} {r : EStateM.Result Failure σ α}
    {r' : EStateM.Result Failure τ β} (h : Agree V S E r r')
    (hx : ∀ s, r ≠ .error .exhausted s) :
    (∃ a s b t, r = .ok a s ∧ r' = .ok b t ∧ V a b ∧ S s t) ∨
      ∃ e s f t, r = .error e s ∧ r' = .error f t ∧ E e f s t := by
  cases r with
  | ok a s =>
    cases r' with
    | ok b t => exact .inl ⟨a, s, b, t, rfl, rfl, h⟩
    | error f t => exact h.elim
  | error e s =>
    have he : e ≠ .exhausted := fun he => hx s (he ▸ rfl)
    cases r' with
    | ok b t => exact absurd h he
    | error f t => exact .inr ⟨e, s, f, t, rfl, rfl, h.resolve_left he⟩

/-- Two sources that answer alike; `state true` holds right after the next token was looked at. -/
structure Simulation (c : Correspondence) (σ τ : Type) [TokenSource σ] [TokenSource τ] where
  state : Bool → σ → τ → Prop
  stopped : Failure → Failure → σ → τ → Prop
  forget {ready : Bool} {s : σ} {t : τ} : state ready s t → state false s t
  peek {ready : Bool} {s : σ} {t : τ} : state ready s t →
    Agree (Option.Rel c.token) (state true) stopped (TokenSource.peek s) (TokenSource.peek t)
  next {ready : Bool} {s : σ} {t : τ} : state ready s t →
    Agree (Option.Rel c.token) (state false) stopped (TokenSource.next s) (TokenSource.next t)
  fail {x y : Cause} {s : σ} {t : τ} : state true s t → x.Matches c y →
    (∀ a, x ≠ .duplicateParameter a) →
    stopped (.malformed ⟨TokenSource.here s, x⟩) (.malformed ⟨TokenSource.here t, y⟩) s t
  refuse {x y : Token} {a b : String} {s : σ} {t : τ} : state false s t → c.token x y →
    c.name a b → stopped (.malformed ⟨x.position, .duplicateParameter a⟩)
      (.malformed ⟨y.position, .duplicateParameter b⟩) s t
  tooDeep {s : σ} {t : τ} : state false s t →
    stopped (.malformed ⟨TokenSource.here s, .nestingTooDeep⟩)
      (.malformed ⟨TokenSource.here t, .nestingTooDeep⟩) s t

theorem agree_exhausted {σ τ α β : Type} {V : α → β → Prop} {S : σ → τ → Prop}
    {E : Failure → Failure → σ → τ → Prop} (s : σ) (r : EStateM.Result Failure τ β) :
    Agree V S E (.error .exhausted s : EStateM.Result Failure σ α) r := by
  cases r <;> simp [Agree]

namespace Simulation

variable {c : Correspondence} {σ τ : Type} [TokenSource σ] [TokenSource τ] {α β γ δ : Type}
  {V : α → β → Prop} {W : γ → δ → Prop} {ready : Bool}

omit [TokenSource σ] [TokenSource τ] in
theorem agree_bind {S S' : σ → τ → Prop} {E : Failure → Failure → σ → τ → Prop}
    {p : Parser σ α} {q : Parser τ β} {f : α → Parser σ γ} {g : β → Parser τ δ} {s : σ} {t : τ}
    (h : Agree V S E (p s) (q t))
    (hf : ∀ a b s t, V a b → S s t → Agree W S' E (f a s) (g b t)) :
    Agree W S' E ((p >>= f) s) ((q >>= g) t) := by
  simp only [bind, EStateM.bind]
  cases hp : p s with
  | ok a s' =>
    cases hq : q t with
    | ok b t' =>
      simp only [hp, hq, Agree] at h
      exact hf a b s' t' h.1 h.2
    | error e t' => simp only [hp, hq, Agree] at h
  | error e s' =>
    cases hq : q t with
    | ok b t' =>
      simp only [hp, hq, Agree] at h
      subst h
      exact agree_exhausted _ _
    | error f t' => simpa only [hp, hq, Agree] using h

theorem expectPunctuation (S : Simulation c σ τ) {s : σ} {t : τ} (hs : S.state ready s t)
    (text : String) : Agree (fun _ _ => True) (S.state false) S.stopped
      (Parser.expectPunctuation text s) (Parser.expectPunctuation text t) := by
  refine agree_bind (S.peek hs) fun x y s t h hst => ?_
  cases h with
  | none => exact .inr (S.fail hst (.same _) nofun)
  | some h =>
    simp only [(c.lexeme h).punctuation_iff]
    split
    · exact agree_bind (S.next hst) fun _ _ _ _ _ hst => ⟨trivial, hst⟩
    · exact .inr (S.fail hst (.same _) nofun)

theorem run (S : Simulation c σ τ) {p : Parser σ α} {q : Parser τ β}
    (h : Lockstep c σ τ ready V p q) {s : σ} {t : τ} (hs : S.state ready s t) :
    Agree V (S.state false) S.stopped (p s) (q t) := by
  induction h generalizing s t with
  | pure h => exact ⟨h, S.forget hs⟩
  | bind hp hf ihp ihf => exact agree_bind (ihp hs) fun a b s t hab hst => ihf a b hab hst
  | look hf ih => exact agree_bind (S.peek hs) fun a b s t hab hst => ih a b hab hst
  | next => exact S.next hs
  | fail hx hd => exact .inr (S.fail hs hx hd)
  | refuse text ht ha =>
    exact agree_bind (S.expectPunctuation hs text) fun _ _ _ _ _ hst => .inr (S.refuse hst ht ha)
  | tooDeep => exact .inr (S.tooDeep (S.forget hs))
  | exhausted q => exact agree_exhausted _ _

omit [TokenSource σ] in
theorem agree_self {S : σ → σ → Prop} {E : Failure → Failure → σ → σ → Prop}
    {U : α → α → Prop} (r : EStateM.Result Failure σ α) (hU : ∀ a, U a a) (hS : ∀ s, S s s)
    (hE : ∀ e s, E e e s s) : Agree U S E r r := by
  cases r with
  | ok a s => exact ⟨hU a, hS s⟩
  | error e s => exact .inr (hE e s)

def identity (σ : Type) [TokenSource σ] : Simulation (.within fun _ => True) σ σ where
  state _ s t := s = t
  stopped e f s t := e = f ∧ s = t
  forget h := h
  peek := by
    intro _ s t h
    subst h
    exact agree_self _ (fun _ => Correspondence.within_rel fun _ _ => trivial) (fun _ => rfl)
      fun _ _ => ⟨rfl, rfl⟩
  next := by
    intro _ s t h
    subst h
    exact agree_self _ (fun _ => Correspondence.within_rel fun _ _ => trivial) (fun _ => rfl)
      fun _ _ => ⟨rfl, rfl⟩
  fail := by
    intro x y s t hst hxy _
    rw [Cause.eq_of_matches hxy, hst]
    exact ⟨rfl, rfl⟩
  refuse := by
    intro x y a b s t hst hxy hab
    rw [hst, hxy.1, hab]
    exact ⟨rfl, rfl⟩
  tooDeep := by
    intro s t hst
    rw [hst]
    exact ⟨rfl, rfl⟩

end Simulation

end RuleLang
