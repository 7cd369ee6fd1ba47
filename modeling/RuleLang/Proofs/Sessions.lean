import RuleLang.Proofs.Places

/-!
Places along a session. A session reads characters, tokens and trees of one text in any order, and
some of its steps fail. No step moves the cursor back, each leaves it in its exact place, and what
is answered bears exact places too.
-/
namespace RuleLang

open RuleLang.Parser

namespace Lexer

def Reading.Advances {α : Type} (r : Reading α) : Prop :=
  ∀ c, Gives (fun _ => True) (fun _ => True) (fun c' => ∃ n, c' = c.advance n) (r c)

namespace Reading.Advances

variable {α β : Type}

theorem pure (a : α) : Advances (Pure.pure a) := fun c => ⟨trivial, 0, c.advance_zero.symm⟩

theorem throw (e : Failure) : Advances (MonadExcept.throw e : Reading α) :=
  fun c => ⟨trivial, 0, c.advance_zero.symm⟩

theorem get : Advances MonadState.get := fun c => ⟨trivial, 0, c.advance_zero.symm⟩

theorem skip (n : Nat) : Advances (skip n) := fun _ => ⟨trivial, n, rfl⟩

theorem bind {r : Reading α} {f : α → Reading β} (h : Advances r) (hf : ∀ a, Advances (f a)) :
    Advances (r >>= f) := by
  intro c
  have hc := h c
  cases hr : r c with
  | error e c' =>
    rw [hr] at hc
    rw [bind_of_error hr]
    exact hc
  | ok a c' =>
    rw [hr] at hc
    obtain ⟨-, n, rfl⟩ := hc
    rw [bind_of_ok hr]
    have hmore := hf a (c.advance n)
    cases hf : f a (c.advance n) <;>
    · rw [hf] at hmore
      obtain ⟨-, m, rfl⟩ := hmore
      exact ⟨trivial, n + m, Cursor.advance_advance _ _ _⟩

theorem readRun (run : List Char → List Char) : Advances (readRun run) :=
  .bind .get fun _ => .bind (.skip _) fun _ => .pure _

theorem map (f : α → β) {r : Reading α} (h : Advances r) : Advances (f <$> r) := by
  rw [map_eq_pure_bind]
  exact .bind h fun a => .pure (f a)

theorem readNumber : Advances readNumber := by
  refine .bind (.readRun _) fun run => ?_
  split
  · exact .pure _
  · exact .throw _

theorem readString (opening : Position) : Advances (readString opening) := by
  refine .bind .get fun c => ?_
  split
  · exact .bind (.skip _) fun _ => .pure _
  · exact .bind (.skip _) fun _ => .throw _

end Reading.Advances

end Lexer

namespace Excerpt

variable {e : Excerpt} {least : Nat}

theorem Stands.advances {α : Type} {r : Lexer.Reading α} {c : Cursor} (h : e.Stands least c)
    (hr : r.Advances) : Gives (fun _ => True) (fun _ => True) (e.Stands least) (r c) := by
  have hc := hr c
  cases hl : r c <;>
  · rw [hl] at hc
    obtain ⟨-, n, rfl⟩ := hc
    exact ⟨trivial, h.advance n⟩

end Excerpt

theorem Call.lexer_not_exhausted (c : Call) (l l' : Lexer) :
    c.perform l ≠ .error .exhausted l' := by
  have hscan (s : Scan) : c.perform l.scan ≠ .error .exhausted s :=
    c.perform_not_exhausted l.failure_scan
  have hlock : Lockstep (.within fun _ => True) Scan Lexer false Eq
      (c.reader (TokenSource.size l.scan + 1)) (c.reader (TokenSource.size l + 1)) :=
    c.reader_lockstep (Nat.succ_le_succ l.size_scan_le)
  intro h
  rcases hlock.onDemand hscan with ⟨_, _, _, _, hl, _⟩ | ⟨f, s, g, _, hs, hl, hsame⟩
  · cases h.symm.trans hl
  · obtain ⟨rfl, -⟩ := EStateM.Result.error.inj (h.symm.trans hl)
    rcases hsame with rfl | ⟨-, hd⟩
    · exact hscan s hs
    · exact hd

/-- The tokens of an answer are found in the excerpt, and its trees bear such tokens. -/
def Answer.ExactIn (e : Excerpt) : Answer → Prop
  | .token t => ∀ x ∈ t, e.Finds x
  | .node n => ∀ x ∈ n.leaves, e.Bears x
  | .nodes ns => ∀ x ∈ Node.leavesAll ns, e.Bears x
  | _ => True

namespace Excerpt

variable {e : Excerpt} {least : Nat} {l : Lexer}

theorem Serves.token (h : e.Serves least l) {c : Call} {l' : Lexer} {t : Option Token}
    (hc : c.perform l = .ok (.token t) l') : ∀ x ∈ t, e.Finds x := by
  have taken {p : Parser Lexer Answer}
      (hp : Gives (Answer.ExactIn e) e.Blames (e.Serves least) (p l))
      (hl : p l = .ok (.token t) l') : ∀ x ∈ t, e.Finds x := by
    rw [hl] at hp
    exact hp.1
  have expected (wanted : Lexeme → Bool) (cause : Cause) :
      Gives (Answer.ExactIn e) e.Blames (e.Serves least)
        (((.token ∘ some) <$> Parser.expect wanted cause : Parser Lexer Answer) l) := by
    refine (h.expect wanted cause).map fun t ht x hx => ?_
    obtain rfl := Option.some.inj hx
    exact ht
  cases c with
  | peekToken => exact taken (h.peek.map fun t ht => show (Answer.token t).ExactIn e from ht) hc
  | nextToken => exact taken (h.next.map fun t ht => show (Answer.token t).ExactIn e from ht) hc
  | expectPunctuation | expectIdentifier | expectOperator => exact taken (expected _ _) hc
  | unexpected =>
    have hread : (Parser.unexpected : Parser Lexer Answer) l = .ok (.token t) l' := hc
    obtain ⟨u, m, -, hu⟩ := bind_ok.1 hread
    cases u <;> cases hu
  | noTokens =>
    obtain ⟨u, m, -, hu⟩ := bind_ok.1 (show Call.noTokens.reader 0 l = .ok (.token t) l' from hc)
    cases hu
  | _ =>
    obtain ⟨a, -, ha⟩ := map_ok.1 hc
    cases ha

theorem Serves.call (h : e.Serves least l) {c : Call}
    (hc : ∀ n ∈ c.node?, ∀ t ∈ n.leaves, e.Bears t) :
    Gives (Answer.ExactIn e) (fun _ => True) (e.Serves least) (c.perform l) := by
  have hself : c.Matches e.correspondence c :=
    Call.matches_self (fun _ => rfl) fun n hn t ht => ⟨rfl, hc n hn t ht⟩
  have hlock : Lockstep e.correspondence Lexer Lexer false (Answer.Matches e.correspondence)
      (c.reader (TokenSource.size l + 1)) (c.reader (TokenSource.size l + 1)) :=
    Call.reader_matches (Nat.le_refl _) hself
  have hx := c.lexer_not_exhausted l
  rw [c.perform_eq] at hx
  have hrun := h.run hlock hx
  rw [← c.perform_eq] at hrun
  cases hl : c.perform l with
  | error f l' =>
    rw [hl] at hrun
    exact ⟨trivial, hrun.2⟩
  | ok a l' =>
    rw [hl] at hrun
    refine ⟨?_, hrun.2⟩
    cases a with
    | token t => exact h.token hl
    | node n =>
      have hleaves := Node.leaves_matches (Answer.matches_node hrun.1)
      exact fun t ht => (List.forall₂_same.1 hleaves t ht).2
    | nodes ns =>
      have hleaves := Node.leavesAll_matches (Answer.matches_nodes hrun.1)
      exact fun t ht => (List.forall₂_same.1 hleaves t ht).2
    | _ => trivial

theorem Serves.perform (h : e.Serves least l) {history : List Outcome}
    (hh : ∀ a, .ok a ∈ history → a.ExactIn e) (s : Step) :
    Gives (Answer.ExactIn e) (fun _ => True) (e.Serves least) (Session.perform history s l) := by
  have hnode (i : Nat) : ∀ t ∈ (Session.nodeAt history i).leaves, e.Bears t := by
    unfold Session.nodeAt Session.answerAt
    cases hi : history[i]? with
    | none => exact nofun
    | some o =>
      cases o with
      | error f => exact nofun
      | ok a =>
        have ha := hh a (List.mem_of_getElem? hi)
        cases a with
        | token t =>
          cases t with
          | none => exact nofun
          | some t => exact fun x hx => .inl (List.mem_singleton.1 hx ▸ ha t rfl)
        | node n => exact ha
        | _ => exact nofun
  have look {α : Type} {f : Cursor → α} {g : α → Answer} (hg : ∀ a, (g a).ExactIn e) :
      Gives (Answer.ExactIn e) (fun _ => True) (e.Serves least)
        ((g <$> Session.onCursor f : Parser Lexer Answer) l) := ⟨hg _, h⟩
  have read {α : Type} {r : Lexer.Reading α} (hr : r.Advances) {g : α → Answer}
      (hg : ∀ a, (g a).ExactIn e) : Gives (Answer.ExactIn e) (fun _ => True) (e.Serves least)
        ((g <$> Lexer.reading r : Parser Lexer Answer) l) :=
    (h.reading (h.cursor.advances hr)).map fun a _ => hg a
  have skip {r : Lexer.Reading Unit} (hr : r.Advances) : Gives (Answer.ExactIn e) (fun _ => True)
      (e.Serves least) ((do Lexer.reading r; return .done : Parser Lexer Answer) l) :=
    (h.reading (h.cursor.advances hr)).bind fun _ _ _ hl => ⟨trivial, hl⟩
  cases hs : s.call? history with
  | some c =>
    rw [Call.perform_step hs]
    refine h.call fun n hn => ?_
    cases s <;> cases hs <;> cases hn <;> exact hnode _
  | none =>
    cases s with
    | peekChar => exact look fun _ => trivial
    | atEnd => exact look fun _ => trivial
    | nextChar => exact read (.bind .get fun _ => .bind (.skip 1) fun _ => .pure _) fun _ => trivial
    | failHere message line column => exact ⟨trivial, h⟩
    | failAtToken message earlier =>
      rw [Call.perform_onText hs, Session.onText]
      cases (earlier.bind (Session.answerAt history)).bind Answer.token? <;> exact ⟨trivial, h⟩
    | readToken =>
      have hread := h.reading h.cursor.readToken
      have hanswer := hread.map (W := Answer.ExactIn e) (f := Answer.token) fun _ ht => ht
      exact hanswer.mono (fun _ ha => ha) fun _ _ => trivial
    | readNumber => exact read .readNumber fun _ => trivial
    | readWord => exact read (.map _ (.readRun _)) fun _ => trivial
    | readOperator => exact read (.map _ (.readRun _)) fun _ => trivial
    | readString opening => exact read (.readString opening) fun _ => trivial
    | readWhile chars =>
      exact (h.reading (h.cursor.advances (.readRun _))).bind fun _ _ _ hl => ⟨trivial, hl⟩
    | skipBlanks => exact skip (.bind (.readRun _) fun _ => .pure _)
    | skipLine => exact skip (.bind (.readRun _) fun _ => .skip 1)
    | _ => cases hs

theorem Serves.run_session (h : e.Serves least l) {history : List Outcome}
    (hh : ∀ a, .ok a ∈ history → a.ExactIn e) (steps : List Step) :
    (least :: (Session.run history steps l).map (·.2.cursor.offset)).Pairwise (· ≤ ·) ∧
      ∀ r ∈ Session.run history steps l, e.Serves least r.2 ∧ ∀ a, r.1 = .ok a → a.ExactIn e := by
  induction steps generalizing history l least with
  | nil => exact ⟨List.pairwise_singleton _ _, List.forall_mem_nil _⟩
  | cons s steps ih =>
    have hstep : e.Serves least (Session.step history s l).2 ∧
        ∀ a, (Session.step history s l).1 = .ok a → a.ExactIn e := by
      have hs := h.perform hh s
      unfold Session.step
      cases hp : Session.perform history s l with
      | ok a l' =>
        rw [hp] at hs
        exact ⟨hs.2, fun b hb => Except.ok.inj hb ▸ hs.1⟩
      | error f l' =>
        rw [hp] at hs
        exact ⟨hs.2, nofun⟩
    rw [Session.run]
    generalize Session.step history s l = r at hstep
    obtain ⟨hr, hexact⟩ := hstep
    have hhistory : ∀ a, .ok a ∈ history ++ [r.1] → a.ExactIn e := by
      intro a ha
      rcases List.mem_append.1 ha with ha | ha
      · exact hh a ha
      · exact hexact a (List.mem_singleton.1 ha).symm
    obtain ⟨hpairs, hall⟩ := ih ⟨⟨hr.cursor.moved, Nat.le_refl _⟩, hr.lookahead⟩ hhistory
    have hle := hr.cursor.least
    have hfurther := (List.pairwise_cons.1 hpairs).1
    refine ⟨List.pairwise_cons.2 ⟨?_, hpairs⟩, ?_⟩
    · exact List.forall_mem_cons.2 ⟨hle, fun n hn => Nat.le_trans hle (hfurther n hn)⟩
    · refine List.forall_mem_cons.2 ⟨⟨hr, hexact⟩, fun r' hr' => ?_⟩
      obtain ⟨hserves, hanswer⟩ := hall r' hr'
      exact ⟨⟨⟨hserves.cursor.moved, Nat.le_trans hle hserves.cursor.least⟩, hserves.lookahead⟩,
        hanswer⟩

end Excerpt

/-- Whatever steps a session takes, and whichever of them fail, the cursor never moves back and
stands in its exact place after each, and so does every token that is answered or read ahead and
every leaf of a tree. -/
theorem positions_exact (e : Excerpt) (steps : List Step) :
    let states := Session.run [] steps ⟨e.cursor, none⟩
    (e.origin :: states.map (·.2.cursor.offset)).Pairwise (· ≤ ·) ∧
      ∀ r ∈ states, e.Holds r.2.cursor ∧ (∀ t ∈ r.2.lookahead, e.Finds t) ∧
        ∀ a, r.1 = .ok a → a.ExactIn e := by
  have hstart : e.Serves e.origin ⟨e.cursor, none⟩ :=
    ⟨⟨⟨0, (Cursor.advance_zero _).symm⟩, Nat.le_refl _⟩, nofun⟩
  have hnone : ∀ a, .ok a ∈ ([] : List Outcome) → a.ExactIn e := nofun
  obtain ⟨hpairs, hall⟩ := hstart.run_session hnone steps
  refine ⟨hpairs, fun r hr => ?_⟩
  obtain ⟨hserves, hanswer⟩ := hall r hr
  exact ⟨hserves.cursor.holds, hserves.lookahead, hanswer⟩

end RuleLang
