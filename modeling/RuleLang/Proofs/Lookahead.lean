import RuleLang.Proofs.Rounds

/-!
Readers see one token ahead. What a reader answers depends on the tokens that it takes and on
the one behind them, so it answers alike on every scan that begins with these. A reader that
finds a parameter declared twice has not even looked at the next token.
-/
namespace RuleLang

/-- A scan with tokens put in front. -/
def Scan.behind (used : List Token) (s : Scan) : Scan := ⟨used ++ s.tokens, s.stop, s.failure⟩

@[simp] theorem Scan.behind_nil (s : Scan) : s.behind [] = s := rfl

theorem Scan.behind_append (xs ys : List Token) (s : Scan) :
    s.behind (xs ++ ys) = (s.behind ys).behind xs := by
  simp [behind]

theorem Scan.behind_inj {xs ys : List Token} {s : Scan} (h : s.behind xs = s.behind ys) :
    xs = ys := List.append_cancel_right (congrArg Scan.tokens h)

theorem Scan.eq_nil_of_behind {xs : List Token} {s : Scan} (h : s.behind xs = s) : xs = [] :=
  behind_inj (h.trans s.behind_nil.symm)

def SameHead (xs ys : List Token) : Prop := ∃ t, xs.head? = some t ∧ ys.head? = some t

theorem sameHead_append {xs : List Token} (hx : xs ≠ []) (ys zs : List Token) :
    SameHead (xs ++ ys) (xs ++ zs) := by
  cases xs with
  | nil => exact absurd rfl hx
  | cons x xs => exact ⟨x, rfl, rfl⟩

theorem SameHead.append {ys zs : List Token} (xs : List Token) (h : SameHead ys zs) :
    SameHead (xs ++ ys) (xs ++ zs) := by
  cases xs with
  | nil => exact h
  | cons x xs => exact ⟨x, rfl, rfl⟩

namespace Parser

/-- Why a reader may have failed, with the scan that it leaves: a lexical failure behind the last
token, a refusal of the next token, or a parameter declared twice among the tokens taken. -/
inductive Excuse (places : Position → Prop) (s : Scan) (left : Scan) : Failure → Prop
  | exhausted : Excuse places s left .exhausted
  | tooDeep (p : Position) : Excuse places s left (.malformed ⟨p, .nestingTooDeep⟩)
  | lexical {e : Failure} : s.failure = some e → Excuse places s left e
  | refused {x : Cause} : (∀ a, x ≠ .duplicateParameter a) →
    left.tokens ≠ [] ∨ left.failure = none → Excuse places s left (.malformed ⟨left.here, x⟩)
  | repeated {p : Position} (a : String) : left.tokens.length < s.tokens.length → places p →
    Excuse places s left (.malformed ⟨p, .duplicateParameter a⟩)

variable {places : Position → Prop} {α β : Type} {V : α → β → Prop} {ready : Bool}
  {p : Parser Scan α} {q : Parser Scan β}

def Leaves (s left : Scan) : Prop := ∃ used, s = left.behind used

theorem Leaves.refl (s : Scan) : Leaves s s := ⟨[], rfl⟩

theorem Leaves.trans {s t u : Scan} (h : Leaves s t) (h' : Leaves t u) : Leaves s u := by
  obtain ⟨xs, rfl⟩ := h
  obtain ⟨ys, rfl⟩ := h'
  exact ⟨xs ++ ys, (Scan.behind_append xs ys u).symm⟩

theorem Leaves.length_le {s t : Scan} (h : Leaves s t) : t.tokens.length ≤ s.tokens.length := by
  obtain ⟨xs, rfl⟩ := h
  simp [Scan.behind]

theorem Leaves.failure_eq {s t : Scan} (h : Leaves s t) : s.failure = t.failure := by
  obtain ⟨xs, rfl⟩ := h
  rfl

theorem Leaves.mem {s t : Scan} (h : Leaves s t) {x : Token} (hx : x ∈ t.tokens) :
    x ∈ s.tokens := by
  obtain ⟨xs, rfl⟩ := h
  exact List.mem_append_right xs hx

theorem Excuse.of_leaves {s t left : Scan} {e : Failure} (h : Leaves s t)
    (he : Excuse places t left e) : Excuse places s left e := by
  cases he with
  | exhausted => exact .exhausted
  | tooDeep p => exact .tooDeep p
  | lexical hf => exact .lexical (h.failure_eq.trans hf)
  | refused hx hl => exact .refused hx hl
  | repeated a hl hp => exact .repeated a (Nat.lt_of_lt_of_le hl h.length_le) hp

def Sober (places : Position → Prop) (V : α → β → Prop) (s : Scan) :
    EStateM.Result Failure Scan α → Prop
  | .ok a left => (∃ b, V a b) ∧ Leaves s left
  | .error e left => Leaves s left ∧ Excuse places s left e

theorem Sober.bind {γ δ : Type} {W : γ → δ → Prop} {f : α → Parser Scan γ} {s : Scan}
    (hp : Sober places V s (p s))
    (hf : ∀ a b left, V a b → Leaves s left → Sober places W left (f a left)) :
    Sober places W s ((p >>= f) s) := by
  cases h : p s with
  | ok a left =>
    rw [h] at hp
    obtain ⟨⟨b, hb⟩, hl⟩ := hp
    have hq := hf a b left hb hl
    rw [bind_of_ok h]
    cases h' : f a left with
    | ok c last =>
      rw [h'] at hq
      exact ⟨hq.1, hl.trans hq.2⟩
    | error e last =>
      rw [h'] at hq
      exact ⟨hl.trans hq.1, hq.2.of_leaves hl⟩
  | error e left =>
    rw [h] at hp
    rw [bind_of_error h]
    exact hp

def Settled (s : Scan) : Prop := s.tokens ≠ [] ∨ s.failure = none

theorem sober_look {f : Option Token → Parser Scan α} {s : Scan}
    (hs : ∀ t ∈ s.tokens, places t.position)
    (hf : ∀ t, Option.Rel (Correspondence.within places).token t t → Settled s →
      Sober places V s (f t s)) :
    Sober places V s ((peek >>= f) s) := by
  obtain ⟨ts, stop, e⟩ := s
  cases ts with
  | cons t ts =>
    exact hf (some t) (.some ⟨rfl, hs t (List.mem_cons_self ..)⟩) (.inl (List.cons_ne_nil t ts))
  | nil =>
    cases e with
    | none => exact hf none .none (.inr rfl)
    | some x => exact ⟨.refl _, .lexical rfl⟩

theorem sober_next {s : Scan} (hs : ∀ t ∈ s.tokens, places t.position) :
    Sober places (Option.Rel (Correspondence.within places).token) s (next s) := by
  obtain ⟨ts, stop, e⟩ := s
  cases ts with
  | cons t ts => exact ⟨⟨some t, .some ⟨rfl, hs t (List.mem_cons_self ..)⟩⟩, [t], rfl⟩
  | nil =>
    cases e with
    | none => exact ⟨⟨none, .none⟩, .refl _⟩
    | some x => exact ⟨.refl _, .lexical rfl⟩

theorem sober_expectPunctuation {s : Scan} (text : String) :
    match expectPunctuation text s with
    | .ok _ left => Leaves s left ∧ left.tokens.length < s.tokens.length
    | .error e left => Leaves s left ∧ Excuse places s left e := by
  obtain ⟨ts, stop, e⟩ := s
  cases ts with
  | cons t ts =>
    by_cases hw : t.lexeme = .punctuation text
    · simp only [expectPunctuation, expect_cons, hw, decide_true, if_true]
      exact ⟨⟨[t], rfl⟩, Nat.lt_succ_self _⟩
    · simp only [expectPunctuation, expect_cons, hw, decide_false]
      exact ⟨.refl _, .refused (by simp) (.inl (List.cons_ne_nil t ts))⟩
  | nil =>
    cases e with
    | none => exact ⟨.refl _, .refused (by simp) (.inr rfl)⟩
    | some x => exact ⟨.refl _, .lexical rfl⟩

theorem Lockstep.sober (h : Lockstep (.within places) Scan Scan ready V p q) {s : Scan}
    (hs : ∀ t ∈ s.tokens, places t.position) (hr : ready = true → Settled s) :
    Sober places V s (p s) := by
  induction h generalizing s with
  | @pure _ _ _ _ a b h => exact ⟨⟨b, h⟩, .refl s⟩
  | bind hp hf ihp ihf =>
    exact (ihp hs hr).bind fun a b left hab hl => ihf a b hab (fun t ht => hs t (hl.mem ht)) nofun
  | look hf ih => exact sober_look hs fun t ht hset => ih t t ht hs fun _ => hset
  | next => exact sober_next hs
  | fail hx hd => exact ⟨.refl s, .refused hd (hr rfl)⟩
  | @refuse _ _ _ _ text t u a b ht ha =>
    have he := @sober_expectPunctuation places s text
    cases hx : expectPunctuation text s with
    | ok y left =>
      rw [hx] at he
      rw [bind_of_ok hx]
      exact ⟨he.1, .repeated a he.2 ht.2⟩
    | error e left =>
      rw [hx] at he
      rw [bind_of_error hx]
      exact he
  | tooDeep => exact ⟨.refl s, .tooDeep _⟩
  | exhausted q => exact ⟨.refl s, .exhausted⟩

theorem Lockstep.takes (h : Lockstep (.within fun _ => True) Scan Scan false V p q) {n k : Nat}
    (hq : Paced n k q) {s left : Scan} {a : α} (hs : s.tokens.length ≤ n)
    (he : s.failure ≠ some .exhausted) (hp : p s = .ok a left) :
    ∃ used, k ≤ used.length ∧ s = left.behind used := by
  have hsober := h.sober (s := s) (fun _ _ => trivial) (absurd · Bool.false_ne_true)
  have hagree := (Simulation.identity Scan).run h (s := s) rfl
  have hpaced := hq s hs he
  rw [hp] at hsober hagree
  obtain ⟨_, used, rfl⟩ := hsober
  cases hrun : q (left.behind used) with
  | error e s' =>
    rw [hrun] at hagree
    exact hagree.elim
  | ok b s' =>
    rw [hrun] at hagree hpaced
    obtain ⟨_, rfl⟩ := hagree
    refine ⟨used, ?_, rfl⟩
    have hlength := hpaced.1
    simp only [Scan.behind, List.length_append] at hlength
    omega

/-- The outcome, if it leaves `left` of `left.behind used`, is that of `q` on any other scan
behind the same tokens. -/
def Replayed (V : α → β → Prop) (q : Parser Scan β) (used : List Token) (left : Scan) :
    EStateM.Result Failure Scan α → Prop
  | .ok a s => s = left → ∀ other : Scan, SameHead left.tokens other.tokens →
    ∃ b, V a b ∧ q (other.behind used) = .ok b other
  | .error e s => s = left → e ≠ .exhausted → ¬ e.IsTooDeep → left.failure ≠ some e →
    ∀ other : Scan, SameHead left.tokens other.tokens ∨ e.IsDuplicate ∧ used ≠ [] →
      q (other.behind used) = .error e other

theorem Excuse.repeated_lt {s left : Scan} {e : Failure} (h : Excuse places s left e)
    (hd : e.IsDuplicate) (hf : s.failure ≠ some e) : left.tokens.length < s.tokens.length := by
  cases h with
  | exhausted => exact hd.elim
  | tooDeep p =>
    obtain ⟨a, ha⟩ := hd
    cases ha
  | lexical h => exact absurd h hf
  | refused hx _ =>
    obtain ⟨a, ha⟩ := hd
    exact absurd ha (hx a)
  | repeated a hl _ => exact hl

theorem Excuse.used_ne_nil {left : Scan} {used : List Token} {e : Failure}
    (h : Excuse places (left.behind used) left e) (hd : e.IsDuplicate)
    (hf : left.failure ≠ some e) : used ≠ [] := by
  intro hnil
  have hlt := h.repeated_lt hd hf
  rw [hnil] at hlt
  exact absurd hlt (Nat.lt_irrefl _)

theorem head?_behind {used : List Token} {left other : Scan} {t : Token}
    (ht : (left.behind used).tokens.head? = some t)
    (ho : SameHead left.tokens other.tokens ∨ used ≠ []) :
    (other.behind used).tokens.head? = some t := by
  cases used with
  | cons u used => exact ht
  | nil =>
    obtain ⟨x, hx, hy⟩ := ho.resolve_right (fun h => h rfl)
    exact hy.trans (hx.symm.trans ht)

theorem look_of_head {s : Scan} {t : Token} (h : s.tokens.head? = some t)
    (f : Option Token → Parser Scan α) : (peek >>= f) s = f (some t) s := by
  obtain ⟨ts, stop, e⟩ := s
  cases ts with
  | nil => cases h
  | cons u ts =>
    obtain rfl := Option.some.inj h
    rfl

theorem replayed_look {f : Option Token → Parser Scan α} {g : Option Token → Parser Scan β}
    {used : List Token} {left : Scan} (hs : ∀ t ∈ (left.behind used).tokens, places t.position)
    (hf : ∀ t, Option.Rel (Correspondence.within places).token t t →
      Settled (left.behind used) → Replayed V (g t) used left (f t (left.behind used))) :
    Replayed V (peek >>= g) used left ((peek >>= f) (left.behind used)) := by
  cases ht : (left.behind used).tokens with
  | cons t ts =>
    have hhead : (left.behind used).tokens.head? = some t := by rw [ht]; rfl
    have hrep := hf (some t) (.some ⟨rfl, hs t (ht ▸ List.mem_cons_self ..)⟩)
      (.inl (ht ▸ List.cons_ne_nil t ts))
    rw [look_of_head hhead]
    cases hx : f (some t) (left.behind used) with
    | ok a s =>
      rw [hx] at hrep
      intro he other ho
      rw [look_of_head (head?_behind hhead (.inl ho))]
      exact hrep he other ho
    | error e s =>
      rw [hx] at hrep
      intro he hne hnd hl other ho
      rw [look_of_head (head?_behind hhead (ho.imp_right And.right))]
      exact hrep he hne hnd hl other ho
  | nil =>
    obtain ⟨hu, hl⟩ := List.append_eq_nil_iff.1 ht
    subst hu
    obtain ⟨ts, stop, x⟩ := left
    subst hl
    cases x with
    | none =>
      rw [Scan.behind_nil, look_nil]
      cases f none ⟨[], stop, none⟩ with
      | ok a s =>
        intro _ other ho
        obtain ⟨t, ht, _⟩ := ho
        cases ht
      | error e s =>
        intro _ _ _ _ other ho
        rcases ho with ⟨t, ht, _⟩ | ⟨_, h⟩
        · cases ht
        · exact absurd rfl h
    | some x =>
      rw [Scan.behind_nil, look_failed]
      intro _ _ _ h
      exact absurd rfl h

theorem replayed_next {used : List Token} {left : Scan}
    (hs : ∀ t ∈ (left.behind used).tokens, places t.position) :
    Replayed (Option.Rel (Correspondence.within places).token) next used left
      (next (left.behind used)) := by
  obtain ⟨ts, stop, x⟩ := left
  cases used with
  | cons t used =>
    intro he other _
    obtain rfl : used = [] := Scan.eq_nil_of_behind he
    exact ⟨some t, .some ⟨rfl, hs t (List.mem_cons_self ..)⟩, rfl⟩
  | nil =>
    cases ts with
    | cons t ts =>
      intro he
      exact absurd (congrArg (·.tokens.length) he) (Nat.ne_of_lt (Nat.lt_succ_self _))
    | nil =>
      cases x with
      | none =>
        intro _ other ho
        obtain ⟨t, ht, _⟩ := ho
        cases ht
      | some x =>
        intro _ _ _ h
        exact absurd rfl h

theorem replayed_fail {x y : Cause} {used : List Token} {left : Scan} (hxy : x = y)
    (hd : ∀ a, x ≠ .duplicateParameter a) :
    Replayed V (fail y) used left (fail x (left.behind used)) := by
  subst hxy
  intro he _ _ _ other ho
  obtain rfl := Scan.eq_nil_of_behind he
  have ho' : SameHead left.tokens other.tokens := by
    rcases ho with ho | ⟨⟨a, ha⟩, _⟩
    · exact ho
    · exact absurd ha (hd a)
  obtain ⟨t, ht, hu⟩ := ho'
  have here_eq {s : Scan} (h : s.tokens.head? = some t) : TokenSource.here s = t.position := by
    obtain ⟨ts, stop, z⟩ := s
    cases ts with
    | nil => cases h
    | cons u ts => rw [← Option.some.inj h]; rfl
  simp only [Scan.behind_nil, fail_run, here_eq ht, here_eq hu]

theorem replayed_next_failAt {p : Position} {a : String} {used : List Token} {left : Scan} :
    Replayed V (next >>= fun _ => failAt p (.duplicateParameter a)) used left
      ((next >>= fun _ => (failAt p (.duplicateParameter a) : Parser Scan α))
        (left.behind used)) := by
  obtain ⟨ts, stop, x⟩ := left
  cases used with
  | cons t used =>
    intro he _ _ _ other _
    obtain rfl : used = [] := Scan.eq_nil_of_behind he
    rfl
  | nil =>
    cases ts with
    | cons t ts =>
      intro he
      exact absurd (congrArg (·.tokens.length) he) (Nat.ne_of_lt (Nat.lt_succ_self _))
    | nil =>
      cases x with
      | none =>
        intro _ _ _ _ other ho
        rcases ho with ⟨t, ht, _⟩ | ⟨_, h⟩
        · cases ht
        · exact absurd rfl h
      | some x =>
        intro _ _ _ h
        exact absurd rfl h

theorem replayed_refuse (text : String) {p : Position} {a : String} {used : List Token}
    {left : Scan} (hs : ∀ t ∈ (left.behind used).tokens, places t.position) :
    Replayed V (expectPunctuation text >>= fun _ => failAt p (.duplicateParameter a)) used left
      ((expectPunctuation text >>= fun _ => (failAt p (.duplicateParameter a) : Parser Scan α))
        (left.behind used)) := by
  simp only [expectPunctuation, expect, bind_assoc]
  apply replayed_look hs
  intro t _ _
  cases t with
  | none => exact replayed_fail rfl (by simp)
  | some t =>
    dsimp only
    by_cases hw : t.lexeme = .punctuation text
    · simp only [hw, decide_true, if_true, bind_assoc, pure_bind]
      exact replayed_next_failAt
    · simp only [hw, decide_false, Bool.false_eq_true, if_false, fail_bind]
      exact replayed_fail rfl (by simp)

section Sequence

variable {γ δ : Type} {W : γ → δ → Prop} {f : α → Parser Scan γ} {g : β → Parser Scan δ}
  {used : List Token} {left : Scan}

theorem used_eq_append {first : List Token} {mid : Scan}
    (hfirst : left.behind used = mid.behind first) (h : Leaves mid left) :
    ∃ second, mid = left.behind second ∧ used = first ++ second := by
  obtain ⟨second, rfl⟩ := h
  refine ⟨second, rfl, Scan.behind_inj (hfirst.trans ?_)⟩
  rw [Scan.behind_append]

theorem replayed_bind (hs : Sober places V (left.behind used) (p (left.behind used)))
    (hp : ∀ first mid, left.behind used = mid.behind first →
      Replayed V q first mid (p (mid.behind first)))
    (hs' : ∀ a b mid, V a b → Leaves (left.behind used) mid → Sober places W mid (f a mid))
    (hf : ∀ a b second, V a b → Leaves (left.behind used) (left.behind second) →
      Replayed W (g b) second left (f a (left.behind second))) :
    Replayed W (q >>= g) used left ((p >>= f) (left.behind used)) := by
  cases hx : p (left.behind used) with
  | error e mid =>
    rw [bind_of_error hx]
    have hrep := hp used left rfl
    rw [hx] at hrep
    intro hm he hd hl other ho
    exact bind_of_error (hrep hm he hd hl other ho) g
  | ok a mid =>
    rw [hx] at hs
    rw [bind_of_ok hx]
    obtain ⟨⟨b, hb⟩, hleaves⟩ := hs
    have hsecond := hs' a b mid hb hleaves
    obtain ⟨first, hfirst⟩ := hleaves
    have hrep := hp first mid hfirst
    rw [← hfirst, hx] at hrep
    -- of the tokens that the second part takes, the first one sees no more than one
    have first_part {second : List Token} (hu : used = first ++ second) {other : Scan}
        (ho : SameHead mid.tokens (other.behind second).tokens) :
        ∃ b, V a b ∧ q (other.behind used) = .ok b (other.behind second) := by
      rw [hu, Scan.behind_append]
      exact hrep rfl (other.behind second) ho
    cases hx' : f a mid with
    | ok c last =>
      rw [hx'] at hsecond
      intro he other ho
      obtain ⟨second, rfl, hu⟩ := used_eq_append hfirst (he ▸ hsecond.2)
      obtain ⟨b, hab, hq⟩ := first_part hu (ho.append second)
      have hrep' := hf a b second hab ⟨first, hfirst⟩
      rw [hx'] at hrep'
      obtain ⟨d, hd, hg⟩ := hrep' he other ho
      exact ⟨d, hd, by rw [bind_of_ok hq, hg]⟩
    | error e last =>
      rw [hx'] at hsecond
      intro he hne hnd hlex other ho
      obtain ⟨second, rfl, hu⟩ := used_eq_append hfirst (he ▸ hsecond.1)
      rw [he] at hsecond
      have hsec (hdup : e.IsDuplicate) : second ≠ [] := hsecond.2.used_ne_nil hdup hlex
      have ho' : SameHead (left.behind second).tokens (other.behind second).tokens := by
        rcases ho with ho | hdup
        · exact ho.append second
        · exact sameHead_append (hsec hdup.1) _ _
      obtain ⟨b, hab, hq⟩ := first_part hu ho'
      have hrep' := hf a b second hab ⟨first, hfirst⟩
      rw [hx'] at hrep'
      rw [bind_of_ok hq]
      exact hrep' he hne hnd hlex other (ho.imp_right fun hdup => ⟨hdup.1, hsec hdup.1⟩)

end Sequence

theorem Lockstep.replay (h : Lockstep (.within places) Scan Scan ready V p q)
    (used : List Token) (left : Scan) (hs : ∀ t ∈ (left.behind used).tokens, places t.position)
    (hr : ready = true → Settled (left.behind used)) :
    Replayed V q used left (p (left.behind used)) := by
  induction h generalizing used left with
  | @pure _ _ _ _ a b h =>
    intro he other _
    obtain rfl := Scan.eq_nil_of_behind he
    exact ⟨b, h, rfl⟩
  | bind hp hf ihp ihf =>
    refine replayed_bind (hp.sober hs hr) (fun first mid he => ?_) (fun a b mid hab hl => ?_)
      fun a b second hab hl => ?_
    · exact ihp first mid (he ▸ hs) (he ▸ hr)
    · exact (hf a b hab).sober (fun t ht => hs t (hl.mem ht)) nofun
    · exact ihf a b hab second left (fun t ht => hs t (hl.mem ht)) nofun
  | look hf ih => exact replayed_look hs fun t ht hset => ih t t ht used left hs fun _ => hset
  | next => exact replayed_next hs
  | fail hx hd => exact replayed_fail (Cause.eq_of_matches hx) hd
  | @refuse _ _ _ _ text t u a b ht ha =>
    obtain ⟨rfl, _⟩ := ht
    obtain rfl : a = b := ha
    exact replayed_refuse text hs
  | tooDeep =>
    intro _ _ hd
    exact absurd rfl hd
  | exhausted q =>
    intro _ hne
    exact absurd rfl hne

end Parser

end RuleLang
