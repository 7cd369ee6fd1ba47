import RuleLang.Proofs.Declarations
import RuleLang.Proofs.Delivery

/-!
Delimited lists. A list is read from its start to its stop, item after item, with a separator
between each two and perhaps one behind the last. What comes next in it depends on the part that
was read last and on the next token alone, whatever the three marks are, even if two of them are
the same or an item can begin with one.
-/
namespace RuleLang.Parser

variable {α : Type}

/-- What of a list was read last. -/
inductive ListPart
  | start | item | separator

section Lists

variable (item : Parser Scan α) (start stop separator : String)

/-- A list from behind its start: the items read so far, the tokens taken, which are those of the
items with a separator between each two, and what is left. -/
inductive Gathers : ListPart → List α → List Token → Scan → Prop
  | start {left : Scan} : Gathers .start [] [] left
  | item {part : ListPart} {xs : List α} {x : α} {t : Token} {used mid : List Token} {left : Scan} :
    Gathers part xs used (left.behind (t :: mid)) → part ≠ .item →
    t.lexeme ≠ .punctuation stop → item (left.behind (t :: mid)) = .ok x left →
    Gathers .item (xs ++ [x]) (used ++ t :: mid) left
  | separator {xs : List α} {s : Token} {used : List Token} {left : Scan} :
    Gathers .item xs used (left.behind [s]) → s.lexeme = .punctuation separator →
    s.lexeme ≠ .punctuation stop → Gathers .separator xs (used ++ [s]) left

/-- How reading a list ends, by the tokens from its start on. -/
inductive Delimits : Scan → EStateM.Result Failure Scan (List α) → Prop
  | list {part : ListPart} {xs : List α} {o c : Token} {used : List Token} {left : Scan} :
    o.lexeme = .punctuation start → Gathers item stop separator part xs used (left.behind [c]) →
    c.lexeme = .punctuation stop → Delimits (left.behind (o :: (used ++ [c]))) (.ok xs left)
  | noStart {s : Scan} :
    (∀ t ∈ s.tokens.head?, t.lexeme ≠ .punctuation start) → Settled s →
    Delimits s (.error (.malformed ⟨s.here, .expectedPunctuation start⟩) s)
  | noItem {part : ListPart} {xs : List α} {o : Token} {used : List Token} {left s : Scan}
    {e : Failure} : o.lexeme = .punctuation start →
    Gathers item stop separator part xs used left → part ≠ .item →
    (∀ t ∈ left.tokens.head?, t.lexeme ≠ .punctuation stop) →
    left.tokens ≠ [] ∨ part = .separator ∧ left.failure = none → item left = .error e s →
    Delimits (left.behind (o :: used)) (.error e s)
  | noSeparator {xs : List α} {o t : Token} {used : List Token} {left : Scan} :
    o.lexeme = .punctuation start → Gathers item stop separator .item xs used left →
    left.tokens.head? = some t → t.lexeme ≠ .punctuation stop →
    t.lexeme ≠ .punctuation separator →
    Delimits (left.behind (o :: used))
      (.error (.malformed ⟨t.position, .expectedPunctuation separator⟩) left)
  | noStop {part : ListPart} {xs : List α} {o : Token} {used : List Token} {left : Scan} :
    o.lexeme = .punctuation start → Gathers item stop separator part xs used left →
    part ≠ .separator → left.tokens = [] → left.failure = none →
    Delimits (left.behind (o :: used))
      (.error (.malformed ⟨left.stop, .expectedPunctuation stop⟩) left)
  | brokenBefore {s : Scan} {e : Failure} : s.Halted e → Delimits s (.error e s)
  | brokenInside {part : ListPart} {xs : List α} {o : Token} {used : List Token} {left : Scan}
    {e : Failure} : o.lexeme = .punctuation start →
    Gathers item stop separator part xs used left → left.Halted e →
    Delimits (left.behind (o :: used)) (.error e left)

def listFrom (rounds : Nat) : ListPart → Parser Scan (List α)
  | .start => items stop separator item (rounds + 1) true
  | .item => items stop separator item (rounds + 1) false
  | .separator => itemsFrom stop separator item rounds

end Lists

section Steps

variable {item : Parser Scan α} {start stop separator : String} {rounds : Nat} {part : ListPart}
  {xs : List α} {o t : Token} {used : List Token} {left : Scan} {e : Failure}

theorem listFrom_stop (ht : left.tokens.head? = some t) (hstop : t.lexeme = .punctuation stop) :
    listFrom item stop separator rounds part left = .ok [] left := by
  cases part with
  | start =>
    rw [listFrom, items_first, look_of_head ht, isMark_some.2 hstop]
    rfl
  | item =>
    rw [listFrom, items_later, look_of_head ht, isMark_some.2 hstop]
    rfl
  | separator =>
    rw [listFrom, itemsFrom, look_of_head ht, isMark_some.2 hstop]
    rfl

theorem listFrom_end {place : Position} (hp : part ≠ .separator) :
    listFrom item stop separator rounds part ⟨[], place, none⟩ = .ok [] ⟨[], place, none⟩ := by
  cases part with
  | start | item => rfl
  | separator => exact absurd rfl hp

theorem listFrom_broken (h : left.Halted e) :
    listFrom item stop separator rounds part left = .error e left := by
  obtain ⟨ts, place, f⟩ := left
  obtain ⟨rfl, rfl⟩ := h
  cases part <;> rfl

theorem listFrom_refused (ht : left.tokens.head? = some t) (hstop : t.lexeme ≠ .punctuation stop)
    (hs : t.lexeme ≠ .punctuation separator) :
    listFrom item stop separator rounds .item left =
      .error (.malformed ⟨t.position, .expectedPunctuation separator⟩) left := by
  rw [listFrom, items_later, look_of_head ht, not_isMark hstop]
  obtain ⟨ts, place, f⟩ := left
  cases ts with
  | nil => cases ht
  | cons u ts =>
    obtain rfl := Option.some.inj ht
    refine bind_of_error (mark_refused fun v hv => ?_) _
    rwa [← Option.some.inj hv]

theorem listFrom_separated (hs : t.lexeme = .punctuation separator)
    (hstop : t.lexeme ≠ .punctuation stop) :
    listFrom item stop separator rounds .item (left.behind [t]) =
      listFrom item stop separator rounds .separator left := by
  rw [listFrom, items_later, look_of_head (t := t) rfl, not_isMark hstop]
  exact bind_of_ok (mark_taken hs) _

theorem listFrom_due (hp : part ≠ .item)
    (hstop : ∀ t ∈ left.tokens.head?, t.lexeme ≠ .punctuation stop)
    (hl : left.tokens ≠ [] ∨ part = .separator ∧ left.failure = none) :
    listFrom item stop separator rounds part left = (do
      let x ← item
      let xs ← items stop separator item rounds false
      return x :: xs) left := by
  obtain ⟨ts, place, f⟩ := left
  cases ts with
  | nil =>
    obtain ⟨rfl, rfl⟩ := hl.resolve_left fun h => h rfl
    rfl
  | cons t ts =>
    have hm : isMark stop (some t) = false := not_isMark (hstop t rfl)
    cases part with
    | start =>
      rw [listFrom, items_first, look_cons, hm, if_neg (by simp), itemsFrom, look_cons, hm]
      rfl
    | item => exact absurd rfl hp
    | separator =>
      rw [listFrom, itemsFrom, look_cons, hm]
      rfl

theorem map_congr_run {β : Type} {q r : Parser Scan α} {s s' : Scan} (h : q s = r s')
    (g : α → β) : (g <$> q) s = (g <$> r) s' := by
  simp only [Functor.map, EStateM.map, h]

theorem Gathers.run (h : Gathers item stop separator part xs used left) (rounds : Nat) :
    listFrom item stop separator (xs.length + rounds) .start (left.behind used) =
      ((xs ++ ·) <$> listFrom item stop separator rounds part) left := by
  induction h generalizing rounds with
  | start =>
    simp only [List.length_nil, Nat.zero_add, List.nil_append]
    exact congrFun (id_map _).symm _
  | @item part xs x t used mid left hxs hp ht hx ih =>
    have hdue : listFrom item stop separator (rounds + 1) part (left.behind (t :: mid)) =
        ((x :: ·) <$> listFrom item stop separator rounds .item) left :=
      (listFrom_due hp (by simpa [Scan.behind] using ht) (.inl (List.cons_ne_nil _ _))).trans
        (bind_of_ok hx _)
    have hlength : (xs ++ [x]).length + rounds = xs.length + (rounds + 1) := by
      rw [List.length_append, List.length_singleton]
      omega
    rw [hlength, Scan.behind_append, ih, map_congr_run hdue, Functor.map_map]
    simp only [List.append_assoc, List.singleton_append]
  | @separator xs s used left hxs hs ht ih =>
    rw [Scan.behind_append, ih]
    exact map_congr_run (listFrom_separated hs ht) _

theorem Gathers.length_le (h : Gathers item stop separator part xs used left) :
    xs.length ≤ used.length := by
  induction h with
  | start => exact Nat.le_refl _
  | item _ _ _ _ ih =>
    simp only [List.length_append, List.length_cons, List.length_nil]
    omega
  | separator _ _ _ ih =>
    rw [List.length_append]
    omega

theorem Gathers.delimited (h : Gathers item stop separator part xs used left)
    (ho : o.lexeme = .punctuation start) (hr : (left.behind (o :: used)).tokens.length < rounds) :
    ∃ more, delimited rounds start stop separator item (left.behind (o :: used)) =
      (listFrom item stop separator more part >>= fun ys => do
        let _ ← expectPunctuation stop
        return xs ++ ys) left := by
  have hle := h.length_le
  have hused : used.length < rounds := by
    simp only [Scan.behind, List.length_append, List.length_cons] at hr
    omega
  obtain ⟨more, rfl⟩ : ∃ n, rounds = xs.length + n + 1 := ⟨rounds - xs.length - 1, by omega⟩
  refine ⟨more, (bind_of_ok (mark_taken ho) _).trans ((bind_congr_run (h.run more) _).trans ?_)⟩
  exact congrFun (bind_map_left _ _ _) _

end Steps

section Outcomes

variable {item : Parser Scan α} {start stop separator : String} {rounds : Nat} {s : Scan}
  {res : EStateM.Result Failure Scan (List α)}

theorem Delimits.run (h : Delimits item start stop separator s res)
    (hr : s.tokens.length < rounds) : delimited rounds start stop separator item s = res := by
  cases h with
  | @list part xs o c used left ho hxs hc =>
    rw [← List.cons_append, Scan.behind_append] at hr ⊢
    obtain ⟨more, hrun⟩ := hxs.delimited ho hr
    rw [hrun, bind_of_ok (listFrom_stop rfl hc), List.append_nil]
    exact bind_of_ok (mark_taken hc) _
  | noStart hts hs =>
    obtain ⟨ts, place, f⟩ := s
    refine bind_of_error ((mark_refused hts).trans ?_) _
    cases ts with
    | nil =>
      obtain rfl : f = none := hs.resolve_left fun h => h rfl
      rfl
    | cons t ts => rfl
  | noItem ho hxs hp hstop hleft he =>
    obtain ⟨more, hrun⟩ := hxs.delimited ho hr
    rw [hrun]
    refine bind_of_error ((listFrom_due hp hstop hleft).trans ?_) _
    exact bind_of_error he _
  | noSeparator ho hxs ht hstop hs =>
    obtain ⟨more, hrun⟩ := hxs.delimited ho hr
    rw [hrun]
    exact bind_of_error (listFrom_refused ht hstop hs) _
  | @noStop part xs o used left ho hxs hp hl hf =>
    obtain ⟨more, hrun⟩ := hxs.delimited ho hr
    obtain ⟨ts, place, f⟩ := left
    subst hl hf
    rw [hrun, bind_of_ok (listFrom_end hp)]
    rfl
  | brokenBefore hf =>
    obtain ⟨ts, place, f⟩ := s
    obtain ⟨rfl, rfl⟩ := hf
    rfl
  | brokenInside ho hxs hf =>
    obtain ⟨more, hrun⟩ := hxs.delimited ho hr
    rw [hrun]
    exact bind_of_error (listFrom_broken hf) _

def TakesToken (item : Parser Scan α) : Prop :=
  ∀ s x left, s.failure ≠ some .exhausted → item s = .ok x left →
    ∃ t mid, s = left.behind (t :: mid)

theorem Gathers.ends {part : ListPart} {xs : List α} {o : Token} {used : List Token} {left : Scan}
    (h : Gathers item stop separator part xs used left) (ho : o.lexeme = .punctuation start)
    (hl : left.tokens = []) (hitem : ∀ x s, item left ≠ .ok x s) :
    ∃ res, Delimits item start stop separator (left.behind (o :: used)) res := by
  cases hf : left.failure with
  | some e => exact ⟨_, .brokenInside ho h ⟨hl, hf⟩⟩
  | none =>
    by_cases hp : part = .separator
    · cases hx : item left with
      | ok x s => exact absurd hx (hitem x s)
      | error e s =>
        have hpart : part ≠ .item := by
          rw [hp]
          exact nofun
        exact ⟨_, .noItem ho h hpart (by simp [hl]) (.inr ⟨hp, hf⟩) hx⟩
    · exact ⟨_, .noStop ho h hp hl hf⟩

theorem Gathers.ends_or_goes_on (hitem : TakesToken item) {part : ListPart} {xs : List α}
    {o : Token} {used : List Token} {left : Scan}
    (h : Gathers item stop separator part xs used left) (ho : o.lexeme = .punctuation start)
    (he : left.failure ≠ some .exhausted) :
    (∃ res, Delimits item start stop separator (left.behind (o :: used)) res) ∨
      ∃ part' xs' t mid left', left = left'.behind (t :: mid) ∧
        Gathers item stop separator part' xs' (used ++ t :: mid) left' := by
  obtain ⟨ts, place, f⟩ := left
  cases ts with
  | nil =>
    refine .inl (h.ends ho rfl fun x s hx => ?_)
    obtain ⟨t, mid, hs⟩ := hitem _ _ _ he hx
    cases hs
  | cons t ts =>
    have hsplit : (⟨t :: ts, place, f⟩ : Scan) = Scan.behind [t] ⟨ts, place, f⟩ := rfl
    by_cases hstop : t.lexeme = .punctuation stop
    · rw [hsplit] at h ⊢
      rw [← Scan.behind_append]
      exact .inl ⟨_, .list ho h hstop⟩
    by_cases hp : part = .item
    · subst hp
      by_cases hs : t.lexeme = .punctuation separator
      · exact .inr ⟨.separator, xs, t, [], ⟨ts, place, f⟩, rfl, h.separator hs hstop⟩
      · exact .inl ⟨_, .noSeparator ho h rfl hstop hs⟩
    · cases hx : item ⟨t :: ts, place, f⟩ with
      | error e s =>
        have hhead : ∀ u ∈ (t :: ts).head?, u.lexeme ≠ .punctuation stop := by simpa using hstop
        exact .inl ⟨_, .noItem ho h hp hhead (.inl (List.cons_ne_nil t ts)) hx⟩
      | ok x s =>
        obtain ⟨u, mid, hs⟩ := hitem _ _ _ he hx
        obtain rfl : t = u := (List.cons.inj (congrArg Scan.tokens hs)).1
        rw [hs] at h hx
        exact .inr ⟨.item, xs ++ [x], t, mid, s, hs, h.item hp hstop hx⟩

/-- However a list goes on, reading it ends, since each separator and each item takes a token. -/
theorem exists_delimits (hitem : TakesToken item) (start stop separator : String)
    (he : s.failure ≠ some .exhausted) : ∃ res, Delimits item start stop separator s res := by
  have from_part {o : Token} (ho : o.lexeme = .punctuation start) (part : ListPart) (xs : List α)
      (used : List Token) (left : Scan) (he : left.failure ≠ some .exhausted)
      (h : Gathers item stop separator part xs used left) :
      ∃ res, Delimits item start stop separator (left.behind (o :: used)) res := by
    induction hn : left.tokens.length using Nat.strongRecOn generalizing part xs used left with
    | ind n ih =>
      rcases h.ends_or_goes_on hitem ho he with hres | ⟨part', xs', t, mid, left', rfl, h'⟩
      · exact hres
      · rw [← Scan.behind_append]
        refine ih left'.tokens.length ?_ part' xs' _ left' he h' rfl
        simp only [Scan.behind, List.length_append, List.length_cons] at hn
        omega
  obtain ⟨ts, place, f⟩ := s
  cases ts with
  | nil =>
    cases f with
    | none => exact ⟨_, .noStart (by simp) (.inr rfl)⟩
    | some e => exact ⟨_, .brokenBefore ⟨rfl, rfl⟩⟩
  | cons o ts =>
    by_cases ho : o.lexeme = .punctuation start
    · exact from_part ho .start [] [] ⟨ts, place, f⟩ he .start
    · exact ⟨_, .noStart (by simpa using ho) (.inl (List.cons_ne_nil o ts))⟩

theorem delimited_iff (hitem : TakesToken item) (start stop separator : String)
    (hr : s.tokens.length < rounds) (he : s.failure ≠ some .exhausted) :
    delimited rounds start stop separator item s = res ↔
      Delimits item start stop separator s res := by
  refine ⟨fun h => ?_, fun h => h.run hr⟩
  obtain ⟨res', hres⟩ := exists_delimits hitem start stop separator he
  rwa [← h, hres.run hr]

end Outcomes

theorem itemReader_takesToken (rounds depth : Nat) (item : ItemReader) :
    TakesToken (Call.itemReader (level rounds depth) item) := by
  intro s x left he hx
  have hlock : Level.Lockstep (.within fun _ => True) (level rounds depth : Level Scan)
      (level (max rounds (s.tokens.length + 1)) depth : Level Scan) :=
    level_lockstep (Nat.le_max_left _ _) depth
  have hpaced : (level (max rounds (s.tokens.length + 1)) depth).Paced s.tokens.length :=
    level_paced (by omega) depth
  obtain ⟨used, hk, hs⟩ := (Call.itemReader_lockstep hlock item).takes
    (Call.itemReader_paced hpaced item) (Nat.le_refl _) he hx
  obtain ⟨t, mid, rfl⟩ := List.exists_cons_of_length_pos hk
  exact ⟨t, mid, hs⟩

section Readers

variable {rounds depth : Nat} {start stop separator : String} {reader : ItemReader}

theorem delimited_not_exhausted {s left : Scan} (hr : s.tokens.length < rounds)
    (he : s.failure ≠ some .exhausted) :
    delimited rounds start stop separator (Call.itemReader (level rounds depth) reader) s ≠
      .error .exhausted left := by
  have hitem := Call.itemReader_paced (level_paced hr depth) reader
  exact (delimited_paced start stop separator hitem hr).not_exhausted (Nat.le_refl _) he

theorem delimited_lexer {l : Lexer} (hr : TokenSource.size l < rounds) :
    let item : Parser Scan Node := Call.itemReader (level rounds depth) reader
    match delimited rounds start stop separator
      (Call.itemReader (level rounds depth) reader) l with
    | .ok xs l' => Delimits item start stop separator l.scan (.ok xs l'.scan)
    | .error e _ => ∃ f s, SameFailure f e ∧
      Delimits item start stop separator l.scan (.error f s) := by
  intro item
  have hscan : l.scan.tokens.length < rounds := Nat.lt_of_le_of_lt l.size_scan_le hr
  have hitem := itemReader_takesToken rounds depth reader
  have hlock : Level.Lockstep (.within fun _ => True) (level rounds depth : Level Scan)
      (level rounds depth : Level Lexer) := level_lockstep (Nat.le_refl _) depth
  have hlist : Lockstep (.within fun _ => True) Scan Lexer false _ _ _ :=
    delimited_lockstep start stop separator (Call.itemReader_lockstep hlock reader)
      (Nat.le_refl rounds)
  rcases hlist.onDemand (fun _ => delimited_not_exhausted hscan l.failure_scan) with
    ⟨xs, ys, l', hs, hl, hxs⟩ | ⟨f, s, e, l', hs, hl, hfe⟩
  · rw [hl]
    obtain rfl := Node.eq_of_matchesAll (Node.matchesAll_iff.2 hxs)
    exact (delimited_iff hitem start stop separator hscan l.failure_scan).1 hs
  · rw [hl]
    exact ⟨f, s, hfe, (delimited_iff hitem start stop separator hscan l.failure_scan).1 hs⟩

end Readers

/-- A list of expressions, of operands or of names is read exactly if it is there, and is refused
for what it lacks, whatever its three marks are. On a text this holds of the tokens that the text
has. -/
theorem delimited_exact (depth : Nat) (start stop separator : String) (reader : ItemReader) :
    (∀ (rounds : Nat) (s : Scan), s.tokens.length < rounds → s.failure ≠ some .exhausted →
      let item : Parser Scan Node := Call.itemReader (level rounds depth) reader
      (∀ res, delimited rounds start stop separator item s = res ↔
        Delimits item start stop separator s res) ∧
      ∀ left, delimited rounds start stop separator item s ≠ .error .exhausted left) ∧
    ∀ (rounds : Nat) (l : Lexer), TokenSource.size l < rounds →
      let item : Parser Scan Node := Call.itemReader (level rounds depth) reader
      match delimited rounds start stop separator
        (Call.itemReader (level rounds depth) reader) l with
      | .ok xs l' => Delimits item start stop separator l.scan (.ok xs l'.scan)
      | .error e _ => ∃ f s, SameFailure f e ∧
        Delimits item start stop separator l.scan (.error f s) := by
  refine ⟨fun rounds s hr he => ⟨fun res => ?_, fun _ => delimited_not_exhausted hr he⟩,
    fun rounds l hr => delimited_lexer hr⟩
  exact delimited_iff (itemReader_takesToken rounds depth reader) start stop separator hr he

theorem delimited_exact_one_mark :
    let mark (column : Int) : Token := ⟨.punctuation ",", 1, column⟩
    let name (column : Int) : Token := ⟨.identifier "x", 1, column⟩
    let s : Scan := .ofTokens [mark 0, name 1, mark 2, name 3, mark 4] ⟨1, 5⟩
    let l : Lexer := ⟨⟨[',', 'x', ',', 'x', ','], 0, .start⟩, none⟩
    let l' : Lexer := ⟨⟨['x', ','], 3, ⟨1, 3⟩⟩, none⟩
    let scanned : Parser Scan Node := Call.itemReader (level 6 0) .identifier
    s.tokens.length < 6 ∧ s.failure ≠ some .exhausted ∧
      Delimits scanned "," "," "," s (.ok [.leaf (name 1)] (.ofTokens [name 3, mark 4] ⟨1, 5⟩)) ∧
      TokenSource.size l < 6 ∧
      Delimits scanned "," "," "," l.scan (.ok [.leaf (name 1)] l'.scan) := by
  intro mark name s l l' scanned
  have hexact := delimited_exact 0 "," "," "," .identifier
  have hlength : s.tokens.length < 6 := by decide
  have hfailure : s.failure ≠ some .exhausted := by decide
  have hsize : TokenSource.size l < 6 := by decide
  refine ⟨hlength, hfailure, ?_, hsize, ?_⟩
  · exact ((hexact.1 6 s hlength hfailure).1 (.ok [.leaf (name 1)] _)).1 rfl
  · have hread : delimited 6 "," "," "," (Call.itemReader (level 6 0) .identifier) l =
        .ok [.leaf (name 1)] l' := rfl
    have hlexer := hexact.2 6 l hsize
    rw [hread] at hlexer
    exact hlexer

end RuleLang.Parser
