import RucDDBS.Library.Grammar

/-!
Shift-reduce parsing with the tables of an LR parser generator. The tables are arbitrary:
what they must satisfy is stated as a certificate, which annotates the states with the
transitions into them, with weights and with items. From the certificate the driver reads
exactly the words of the grammar, it ends on every source of tokens, and its stack is
bounded.

A state may choose its reduction before it has seen a token, and the parse ends at a
production of the start symbol. So the driver takes its tokens one by one, and does not
ask for a token behind the word.
-/

namespace LR

open Grammar

variable {T N : Type} {Val : Symbol T N → Type} {σ : Type}

section Driver

inductive Action where
  | shift (q : Nat)
  | reduce (r : Nat)
  | error
  deriving DecidableEq

/-- What a state does before it sees a token. -/
inductive Quick where
  | reduce (r : Nat)
  | error
  | look
  deriving DecidableEq

structure Tables (T N : Type) where
  quick : Nat → Quick
  action : Nat → T → Action
  goto : Nat → N → Nat

structure Frame (Val : Symbol T N → Type) where
  state : Nat
  sym : Valued Val

/-- The state on top of a stack; the empty stack stands for the initial state. -/
def top : List (Frame Val) → Nat
  | [] => 0
  | f :: _ => f.state

/-- The symbols of a stack from the bottom. -/
def symbols (frames : List (Frame Val)) : List (Valued Val) := frames.reverse.map Frame.sym

structure Config (Val : Symbol T N → Type) (σ : Type) where
  frames : List (Frame Val)
  ahead : Option (Token Val)
  source : σ

/-- How a parse ends. The driver is `stuck` where its tables make no sense. -/
inductive Halt (Val : Symbol T N → Type) (start : N) where
  | accept (v : Val (.nonterminal start))
  | reject
  | stuck

inductive Outcome (Val : Symbol T N → Type) (start : N) (σ : Type) where
  | next (c : Config Val σ)
  | halt (h : Halt Val start) (c : Config Val σ)

variable [DecidableEq T] [DecidableEq N] (rule : Nat → Option (Production Val)) (start : N)
  (A : Tables T N) (next : σ → Token Val × σ)

def reduce (c : Config Val σ) (r : Nat) : Outcome Val start σ :=
  match rule r with
  | none => .halt .stuck c
  | some p =>
      match Vals.ofList? p.rhs (symbols (c.frames.take p.rhs.length)) with
      | none => .halt .stuck c
      | some vs =>
          if h : p.lhs = start then .halt (.accept (h ▸ p.action vs)) c
          else
            let rest := c.frames.drop p.rhs.length
            .next { c with
              frames := ⟨A.goto (top rest) p.lhs, ⟨.nonterminal p.lhs, p.action vs⟩⟩ :: rest }

/-- The token ahead, read from the source if there is none. -/
def peek (c : Config Val σ) : Token Val × σ :=
  match c.ahead with
  | some tok => (tok, c.source)
  | none => next c.source

def step (c : Config Val σ) : Outcome Val start σ :=
  match A.quick (top c.frames) with
  | .reduce r => reduce rule start A c r
  | .error => .halt .reject c
  | .look =>
      let (tok, source) := peek next c
      match A.action (top c.frames) tok.1 with
      | .shift q => .next ⟨⟨q, ⟨.terminal tok.1, tok.2⟩⟩ :: c.frames, none, source⟩
      | .reduce r => reduce rule start A ⟨c.frames, some tok, source⟩ r
      | .error => .halt .reject ⟨c.frames, some tok, source⟩

def run : Nat → Config Val σ → Option (Halt Val start × Config Val σ)
  | 0, _ => none
  | fuel + 1, c =>
      match step rule start A next c with
      | .next c => run fuel c
      | .halt h c => some (h, c)

def initial (s : σ) : Config Val σ := ⟨[], none, s⟩

end Driver

section Source

variable (next : σ → Token Val × σ)

/-- `Reads next s w s'`: the tokens that come from `s` up to `s'` are `w`. -/
inductive Reads : σ → List (Token Val) → σ → Prop
  | nil (s : σ) : Reads s [] s
  | cons {s s' : σ} {w : List (Token Val)} :
      Reads (next s).2 w s' → Reads s ((next s).1 :: w) s'

/-- The first token that `c` has not consumed is the first one from `s`. -/
def At (c : Config Val σ) (s : σ) : Prop :=
  (c.ahead = none ∧ c.source = s) ∨ ∃ tok, c.ahead = some tok ∧ next s = (tok, c.source)

/-- The token `stop` comes within the first `n + 1` tokens. -/
def Stops (stop : T) : Nat → σ → Prop
  | 0, s => (next s).1.1 = stop
  | n + 1, s => (next s).1.1 = stop ∨ Stops stop n (next s).2

variable {next} {s s' s'' : σ} {w w' : List (Token Val)} {c : Config Val σ}

theorem Reads.append (h : Reads next s w s') (h' : Reads next s' w' s'') :
    Reads next s (w ++ w') s'' := by
  induction h with
  | nil _ => exact h'
  | cons _ ih => exact .cons (ih h')

theorem Reads.snoc (h : Reads next s w s') :
    Reads next s (w ++ [(next s').1]) (next s').2 :=
  h.append (.cons (.nil _))

theorem Reads.split (h : Reads next s (w ++ w') s'') :
    ∃ s', Reads next s w s' ∧ Reads next s' w' s'' := by
  induction w generalizing s with
  | nil => exact ⟨s, .nil s, h⟩
  | cons tok w ih =>
      cases h with
      | cons hrest =>
          obtain ⟨s', hfirst, hsecond⟩ := ih hrest
          exact ⟨s', .cons hfirst, hsecond⟩

theorem peek_of_at (h : At next c s) : peek next c = next s := by
  rcases h with ⟨hnone, rfl⟩ | ⟨tok, hsome, hnext⟩
  · simp only [peek, hnone]
  · simp only [peek, hsome, hnext]

theorem at_none (frames : List (Frame Val)) (s : σ) : At next ⟨frames, none, s⟩ s :=
  .inl ⟨rfl, rfl⟩

theorem at_some (frames : List (Frame Val)) (s : σ) :
    At next ⟨frames, some (next s).1, (next s).2⟩ s :=
  .inr ⟨_, rfl, rfl⟩

theorem At.with_frames (h : At next c s) (frames : List (Frame Val)) :
    At next { c with frames } s :=
  h

end Source

section Steps

variable [DecidableEq T] [DecidableEq N] {rule : Nat → Option (Production Val)} {start : N}
  (A : Tables T N) {next : σ → Token Val × σ} {c : Config Val σ} {s : σ}

section Reduce

variable {r : Nat} {p : Production Val} {popped rest : List (Frame Val)} {vs : Vals Val p.rhs}

theorem ofList?_popped (hframes : c.frames = popped ++ rest) (hvs : symbols popped = vs.toList) :
    Vals.ofList? p.rhs (symbols (c.frames.take p.rhs.length)) = some vs ∧
      c.frames.drop p.rhs.length = rest := by
  have hlength : popped.length = p.rhs.length := by
    have h := congrArg List.length hvs
    rwa [symbols, List.length_map, List.length_reverse, Vals.length_toList] at h
  rw [hframes, ← hlength, List.take_left, List.drop_left, hvs, Vals.ofList?_toList]
  exact ⟨rfl, rfl⟩

theorem reduce_next (hrule : rule r = some p) (hstart : p.lhs ≠ start)
    (hframes : c.frames = popped ++ rest) (hvs : symbols popped = vs.toList) :
    reduce rule start A c r = .next { c with
      frames := ⟨A.goto (top rest) p.lhs, ⟨.nonterminal p.lhs, p.action vs⟩⟩ :: rest } := by
  obtain ⟨hof, hdrop⟩ := ofList?_popped hframes hvs
  rw [reduce, hrule]
  simp only [hof, hdrop, hstart, ↓reduceDIte]

theorem reduce_start (hrule : rule r = some p) (hstart : p.lhs = start)
    (hframes : c.frames = popped ++ rest) (hvs : symbols popped = vs.toList) :
    ∃ v, (⟨.nonterminal p.lhs, p.action vs⟩ : Valued Val) = ⟨.nonterminal start, v⟩ ∧
      reduce rule start A c r = .halt (.accept v) c := by
  obtain ⟨hof, _⟩ := ofList?_popped hframes hvs
  subst hstart
  refine ⟨p.action vs, rfl, ?_⟩
  rw [reduce, hrule]
  simp only [hof, ↓reduceDIte]

end Reduce

variable {A} (rule start)

theorem step_shift {q : Nat} (hat : At next c s) (hquick : A.quick (top c.frames) = .look)
    (haction : A.action (top c.frames) (next s).1.1 = .shift q) :
    step rule start A next c =
      .next ⟨⟨q, ⟨.terminal (next s).1.1, (next s).1.2⟩⟩ :: c.frames, none, (next s).2⟩ := by
  rw [step, hquick]
  dsimp only
  rw [peek_of_at hat, haction]

theorem step_reduce {r : Nat} (hat : At next c s) (hr : A.quick (top c.frames) = .reduce r ∨
      A.quick (top c.frames) = .look ∧ A.action (top c.frames) (next s).1.1 = .reduce r) :
    ∃ c', c'.frames = c.frames ∧ At next c' s ∧
      (A.quick (top c.frames) = .reduce r → c' = c) ∧
      step rule start A next c = reduce rule start A c' r := by
  rcases hr with hquick | ⟨hquick, haction⟩
  · refine ⟨c, rfl, hat, fun _ => rfl, ?_⟩
    rw [step, hquick]
  · refine ⟨⟨c.frames, some (next s).1, (next s).2⟩, rfl, at_some _ s, ?_, ?_⟩
    · intro heq
      rw [hquick] at heq
      cases heq
    · rw [step, hquick]
      dsimp only
      rw [peek_of_at hat, haction]

theorem step_error (hat : At next c s) (hquick : A.quick (top c.frames) = .look)
    (haction : A.action (top c.frames) (next s).1.1 = .error) :
    ∃ c', c'.frames = c.frames ∧ At next c' s ∧
      step rule start A next c = .halt .reject c' := by
  refine ⟨⟨c.frames, some (next s).1, (next s).2⟩, rfl, at_some _ s, ?_⟩
  rw [step, hquick]
  dsimp only
  rw [peek_of_at hat, haction]

end Steps

section Safety

variable (rule : Nat → Option (Production Val)) (start : N) (A : Tables T N)
  (edge : Nat → Symbol T N → Nat → Prop) (weight extra : Nat → Nat)

/-- A state that a stack can have on top. -/
def Live (q : Nat) : Prop := q = 0 ∨ ∃ p X, edge p X q

/-- The states of the stack are linked by transitions. -/
def Path : List (Frame Val) → Prop
  | [] => True
  | f :: rest => edge (top rest) f.sym.1 f.state ∧ Path rest

/-- The weights of the states of a stack. -/
def load : List (Frame Val) → Nat
  | [] => 0
  | f :: rest => weight f.state + load rest

/-- On every way back from `q` the symbols are those of `Xs`, and then `K` holds of the
weight of the states left behind and of the state below them. -/
def Pops (K : Nat → Nat → Prop) : List (Symbol T N) → Nat → Nat → Prop
  | [], popped, q => K popped q
  | X :: Xs, popped, q => q ≠ 0 ∧ ∀ p Y, edge p Y q → Y = X ∧ Pops K Xs (popped + weight q) p

/-- The reductions that `q` makes. -/
def Reduces (q r : Nat) : Prop :=
  A.quick q = .reduce r ∨ A.quick q = .look ∧ ∃ t, A.action q t = .reduce r

/-- Where the driver goes after a reduction in `q`: a production of the start symbol leaves
the stack empty, any other one leads along a transition and makes the stack lighter. -/
def Lands (p : Production Val) (q popped below : Nat) : Prop :=
  (p.lhs = start → below = 0) ∧ (p.lhs ≠ start →
    edge below (.nonterminal p.lhs) (A.goto below p.lhs) ∧
      weight (A.goto below p.lhs) + extra (A.goto below p.lhs) < popped + extra q)

/-- The driver never gets stuck, and every reduction makes its stack lighter. -/
structure Safe : Prop where
  bottom : ∀ p X, ¬ edge p X 0
  shift : ∀ q t q', Live edge q → A.quick q = .look → A.action q t = .shift q' →
    edge q (.terminal t) q'
  reduce : ∀ q r, Live edge q → Reduces A q r → ∃ p, rule r = some p ∧
    Pops edge weight (Lands start A edge weight extra p q) p.rhs.reverse 0 q

variable {rule start A edge weight extra} {frames : List (Frame Val)} {next : σ → Token Val × σ}
  {s : σ} {c : Config Val σ}

theorem live_top (h : Path edge frames) : Live edge (top frames) := by
  cases frames with
  | nil => exact .inl rfl
  | cons f rest => exact .inr ⟨_, _, h.1⟩

theorem Path.drop (h : Path edge frames) (n : Nat) : Path edge (frames.drop n) := by
  induction frames generalizing n with
  | nil => rwa [List.drop_nil]
  | cons f rest ih =>
      cases n with
      | zero => exact h
      | succ n => exact ih h.2 n

theorem Safe.eq_nil_of_top (hsafe : Safe rule start A edge weight extra)
    (h : Path edge frames) (htop : top frames = 0) : frames = [] := by
  cases frames with
  | nil => rfl
  | cons f rest =>
      have hedge := h.1
      rw [show f.state = 0 from htop] at hedge
      exact absurd hedge (hsafe.bottom _ _)

theorem Pops.of_path {K : Nat → Nat → Prop} {Xs : List (Symbol T N)} {popped : Nat}
    (h : Path edge frames) (hpops : Pops edge weight K Xs popped (top frames)) :
    (frames.take Xs.length).map (·.sym.1) = Xs ∧
      K (popped + load weight (frames.take Xs.length)) (top (frames.drop Xs.length)) := by
  induction Xs generalizing frames popped with
  | nil =>
      refine ⟨rfl, ?_⟩
      simpa [load, Pops] using hpops
  | cons X Xs ih =>
      cases frames with
      | nil => exact absurd rfl hpops.1
      | cons f rest =>
          obtain ⟨hsym, hrest⟩ := hpops.2 _ _ h.1
          obtain ⟨hsyms, hk⟩ := ih h.2 hrest
          refine ⟨?_, ?_⟩
          · simp only [List.length_cons, List.take_succ_cons, List.map_cons, hsym, hsyms]
          · simpa [load, top, Nat.add_assoc] using hk

/-- What a step can do on a stack along the transitions when the next token is the first
one from `s`. -/
inductive Moves (rule : Nat → Option (Production Val)) (start : N) (A : Tables T N)
    (edge : Nat → Symbol T N → Nat → Prop) (weight extra : Nat → Nat)
    (next : σ → Token Val × σ) (s : σ) (c : Config Val σ) : Outcome Val start σ → Prop
  | shift {q : Nat} : A.quick (top c.frames) = .look →
      A.action (top c.frames) (next s).1.1 = .shift q →
      edge (top c.frames) (.terminal (next s).1.1) q →
      Moves rule start A edge weight extra next s c
        (.next ⟨⟨q, ⟨.terminal (next s).1.1, (next s).1.2⟩⟩ :: c.frames, none, (next s).2⟩)
  | reduce {r : Nat} {p : Production Val} {vs : Vals Val p.rhs} {popped rest : List (Frame Val)}
      {c' : Config Val σ} : rule r = some p → p.lhs ≠ start → c.frames = popped ++ rest →
      symbols popped = vs.toList → edge (top rest) (.nonterminal p.lhs) (A.goto (top rest) p.lhs) →
      weight (A.goto (top rest) p.lhs) + extra (A.goto (top rest) p.lhs) <
        load weight popped + extra (top c.frames) → At next c' s →
      c'.frames = ⟨A.goto (top rest) p.lhs, ⟨.nonterminal p.lhs, p.action vs⟩⟩ :: rest →
      Moves rule start A edge weight extra next s c (.next c')
  | accept {r : Nat} {p : Production Val} {vs : Vals Val p.rhs} {c' : Config Val σ}
      {v : Val (.nonterminal start)} : Reduces A (top c.frames) r → rule r = some p →
      symbols c.frames = vs.toList →
      (⟨.nonterminal p.lhs, p.action vs⟩ : Valued Val) = ⟨.nonterminal start, v⟩ → At next c' s →
      (A.quick (top c.frames) = .reduce r → c' = c) →
      Moves rule start A edge weight extra next s c (.halt (.accept v) c')
  | reject {c' : Config Val σ} : At next c' s → c'.frames = c.frames →
      Moves rule start A edge weight extra next s c (.halt .reject c')

variable [DecidableEq T] [DecidableEq N]

/-- The symbols that a reduction takes from the stack are a right-hand side, and it leads where
it should. -/
theorem Safe.handle (hsafe : Safe rule start A edge weight extra) (hpath : Path edge frames)
    {r : Nat} (hreduces : Reduces A (top frames) r) :
    ∃ (p : Production Val) (popped rest : List (Frame Val)) (vs : Vals Val p.rhs),
      rule r = some p ∧ frames = popped ++ rest ∧ symbols popped = vs.toList ∧
      Path edge rest ∧ (p.lhs = start → rest = []) ∧ (p.lhs ≠ start →
        edge (top rest) (.nonterminal p.lhs) (A.goto (top rest) p.lhs) ∧
        weight (A.goto (top rest) p.lhs) + extra (A.goto (top rest) p.lhs) <
          load weight popped + extra (top frames)) := by
  obtain ⟨p, hrule, hpops⟩ := hsafe.reduce _ r (live_top hpath) hreduces
  obtain ⟨hsyms, hlands⟩ := Pops.of_path hpath hpops
  rw [List.length_reverse] at hsyms hlands
  rw [Nat.zero_add] at hlands
  have hfst : (symbols (frames.take p.rhs.length)).map Sigma.fst = p.rhs := by
    rw [symbols, List.map_map, List.map_reverse]
    exact (congrArg List.reverse hsyms).trans p.rhs.reverse_reverse
  obtain ⟨vs, _, hvs⟩ := Vals.exists_ofList? hfst
  have hrest := hpath.drop p.rhs.length
  exact ⟨p, _, _, vs, hrule, (List.take_append_drop p.rhs.length frames).symm, hvs.symm, hrest,
    fun hstart => hsafe.eq_nil_of_top hrest (hlands.1 hstart), hlands.2⟩

theorem Safe.reduce_moves (hsafe : Safe rule start A edge weight extra)
    (hpath : Path edge c.frames) {r : Nat} (hreduces : Reduces A (top c.frames) r)
    {c' : Config Val σ} (hframes : c'.frames = c.frames) (hat : At next c' s)
    (hsame : A.quick (top c.frames) = .reduce r → c' = c) :
    Moves rule start A edge weight extra next s c (LR.reduce rule start A c' r) := by
  obtain ⟨p, popped, rest, vs, hrule, hcut, hvs, _, hnil, hlands⟩ := hsafe.handle hpath hreduces
  by_cases hstart : p.lhs = start
  · obtain ⟨v, hv, heq⟩ := reduce_start A hrule hstart (hframes.trans hcut) hvs
    rw [heq]
    rw [hnil hstart, List.append_nil] at hcut
    exact .accept hreduces hrule (by rw [hcut, hvs]) hv hat hsame
  · obtain ⟨hedge, hlighter⟩ := hlands hstart
    rw [reduce_next A hrule hstart (hframes.trans hcut) hvs]
    exact .reduce hrule hstart hcut hvs hedge hlighter (hat.with_frames _) rfl

/-- The driver is never stuck, and this is all it does. -/
theorem Safe.step_moves (hsafe : Safe rule start A edge weight extra)
    (hpath : Path edge c.frames) (hat : At next c s) :
    Moves rule start A edge weight extra next s c (step rule start A next c) := by
  cases hquick : A.quick (top c.frames) with
  | reduce r =>
      obtain ⟨c', hframes, hat', hsame, heq⟩ := step_reduce rule start hat (.inl hquick)
      rw [heq]
      exact hsafe.reduce_moves hpath (.inl hquick) hframes hat' hsame
  | error =>
      rw [step, hquick]
      exact .reject hat rfl
  | look =>
      cases haction : A.action (top c.frames) (next s).1.1 with
      | shift q =>
          rw [step_shift rule start hat hquick haction]
          exact .shift hquick haction (hsafe.shift _ _ _ (live_top hpath) hquick haction)
      | reduce r =>
          obtain ⟨c', hframes, hat', hsame, heq⟩ :=
            step_reduce rule start hat (.inr ⟨hquick, haction⟩)
          rw [heq]
          exact hsafe.reduce_moves hpath (.inr ⟨hquick, _, haction⟩) hframes hat' hsame
      | error =>
          obtain ⟨c', hframes, hat', heq⟩ := step_error rule start hat hquick haction
          rw [heq]
          exact .reject hat' hframes

end Safety

section Runs

variable {rule : Nat → Option (Production Val)} {start : N}
  {A : Tables T N} {edge : Nat → Symbol T N → Nat → Prop} {weight extra depth : Nat → Nat}
  {next : σ → Token Val × σ} {c c' : Config Val σ} {s s₀ : σ} {w : List (Token Val)}

theorem symbols_cons (f : Frame Val) (rest : List (Frame Val)) :
    symbols (f :: rest) = symbols rest ++ [f.sym] := by
  rw [symbols, List.reverse_cons, List.map_append]
  rfl

theorem symbols_append (popped rest : List (Frame Val)) :
    symbols (popped ++ rest) = symbols rest ++ symbols popped := by
  rw [symbols, List.reverse_append, List.map_append]
  rfl

theorem load_append (popped rest : List (Frame Val)) :
    load weight (popped ++ rest) = load weight popped + load weight rest := by
  induction popped with
  | nil => exact (Nat.zero_add _).symm
  | cons f popped ih => rw [List.cons_append, load, load, ih, Nat.add_assoc]

/-- No stack is higher than its top state is deep. -/
theorem Path.length_le {frames : List (Frame Val)}
    (hdeep : ∀ p X q, edge p X q → depth p < depth q) (h : Path edge frames) :
    frames.length ≤ depth (top frames) := by
  induction frames with
  | nil => exact Nat.zero_le _
  | cons f rest ih =>
      have hrest := ih h.2
      have hlt := hdeep _ _ _ h.1
      exact Nat.lt_of_le_of_lt hrest hlt

/-- What is known of a configuration that the driver reaches from `s₀`: the consumed word
`w` is derived from the symbols on the stack. -/
structure Reached (rule : Nat → Option (Production Val)) (edge : Nat → Symbol T N → Nat → Prop)
    (next : σ → Token Val × σ) (s₀ : σ) (w : List (Token Val)) (s : σ) (c : Config Val σ) :
    Prop where
  reads : Reads next s₀ w s
  ahead : At next c s
  derives : Derives rule (symbols c.frames) w
  path : Path edge c.frames

theorem reached_initial (s : σ) : Reached rule edge next s [] s (initial s) where
  reads := .nil s
  ahead := at_none [] s
  derives := .nil
  path := trivial

/-- One step keeps this. -/
theorem Reached.step (h : Reached rule edge next s₀ w s c)
    (hmoves : Moves rule start A edge weight extra next s c (.next c')) :
    ∃ w' s', Reached rule edge next s₀ w' s' c' := by
  cases hmoves with
  | shift _ _ hedge =>
      refine ⟨_, _, h.reads.snoc, at_none _ _, ?_, hedge, h.path⟩
      rw [symbols_cons]
      exact h.derives.snoc_terminal _ _
  | @reduce r p vs popped rest _ hrule _ hcut hvs hedge _ hat hframes =>
      have hderives := h.derives
      rw [hcut, symbols_append, hvs] at hderives
      have hpath := h.path.drop popped.length
      rw [hcut, List.drop_left] at hpath
      refine ⟨w, s, h.reads, hat, ?_, ?_⟩
      · rw [hframes, symbols_cons]
        exact hderives.reduce hrule
      · rw [hframes]
        exact ⟨hedge, hpath⟩

/-- The productions of the start symbol end in a terminal, and they are reduced before the
driver asks for a token. -/
def Eager (rule : Nat → Option (Production Val)) (start : N) (A : Tables T N)
    (edge : Nat → Symbol T N → Nat → Prop) : Prop :=
  ∀ q r p, Live edge q → Reduces A q r → rule r = some p → p.lhs = start →
    A.quick q = .reduce r ∧ ∃ t, p.rhs.getLast? = some (.terminal t)

/-- Behind a terminal no token has been read yet. -/
def Fresh (c : Config Val σ) : Prop :=
  ∀ f ∈ c.frames.head?, ∀ t, f.sym.1 = .terminal t → c.ahead = none

theorem fresh_initial (s : σ) : Fresh (initial s : Config Val σ) :=
  fun _ hf => nomatch hf

theorem Fresh.step (hmoves : Moves rule start A edge weight extra next s c (.next c')) :
    Fresh c' := by
  cases hmoves with
  | shift _ _ _ => exact fun _ _ _ _ => rfl
  | reduce _ _ _ _ _ _ _ hframes =>
      intro f hf t ht
      rw [hframes] at hf
      cases hf
      cases ht

variable [DecidableEq T] [DecidableEq N]

/-- How a run may end after the word `w`. -/
def Halt.Sound (rule : Nat → Option (Production Val)) (w : List (Token Val)) :
    Halt Val start → Prop
  | .accept v => Derives rule [⟨.nonterminal start, v⟩] w
  | .reject => True
  | .stuck => False

/-- What the driver accepts is a word of the grammar, and its value is the word's. -/
theorem Safe.run_sound (hsafe : Safe rule start A edge weight extra) {fuel : Nat}
    {h : Halt Val start} (hreached : Reached rule edge next s₀ w s c)
    (hrun : run rule start A next fuel c = some (h, c')) :
    ∃ w' s', Reads next s₀ w' s' ∧ At next c' s' ∧ h.Sound rule w' := by
  induction fuel generalizing c w s with
  | zero => cases hrun
  | succ fuel ih =>
      have hmoves := hsafe.step_moves hreached.path hreached.ahead
      rw [run] at hrun
      cases hstep : LR.step rule start A next c with
      | next c₁ =>
          rw [hstep] at hrun hmoves
          obtain ⟨w', s', hreached'⟩ := hreached.step hmoves
          exact ih hreached' hrun
      | halt h₁ c₁ =>
          rw [hstep] at hrun hmoves
          simp only [Option.some.injEq, Prod.mk.injEq] at hrun
          obtain ⟨rfl, rfl⟩ := hrun
          cases hmoves with
          | accept _ hrule hvs hv hat _ =>
              refine ⟨w, s, hreached.reads, hat, ?_⟩
              have hderives := hreached.derives
              rw [hvs] at hderives
              have hstart := Derives.reduce (l := []) hderives hrule
              rw [hv] at hstart
              exact hstart
          | reject hat => exact ⟨w, s, hreached.reads, hat, trivial⟩

/-- The token `stop` is only shifted where the parse ends behind it. -/
def EndsAt (rule : Nat → Option (Production Val)) (start : N) (A : Tables T N)
    (edge : Nat → Symbol T N → Nat → Prop) (stop : T) : Prop :=
  ∀ q q', Live edge q → A.quick q = .look → A.action q stop = .shift q' →
    ∃ r p, A.quick q' = .reduce r ∧ rule r = some p ∧ p.lhs = start

theorem reduce_halts {r : Nat} {p : Production Val} (hrule : rule r = some p)
    (hstart : p.lhs = start) : ∃ h, LR.reduce rule start A c r = .halt h c := by
  rw [LR.reduce, hrule]
  dsimp only
  split
  · exact ⟨_, rfl⟩
  · rw [dif_pos hstart]
    exact ⟨_, rfl⟩

/-- The driver comes to an end: a reduction makes the stack lighter, and a token heavier by
at most `heaviest`. -/
theorem Safe.run_ends (hsafe : Safe rule start A edge weight extra) {heaviest : Nat}
    (hheaviest : ∀ q, Live edge q → weight q + extra q ≤ heaviest) {stop : T}
    (hstop : EndsAt rule start A edge stop) {fuel n : Nat} (hpath : Path edge c.frames)
    (hat : At next c s) (hstops : Stops next stop n s)
    (hfuel : load weight c.frames + extra (top c.frames) + (heaviest + 1) * (n + 1) + 1 ≤ fuel) :
    ∃ h c', run rule start A next fuel c = some (h, c') := by
  induction fuel generalizing c s n with
  | zero => omega
  | succ fuel ih =>
      have hmoves := hsafe.step_moves hpath hat
      rw [run]
      cases hstep : LR.step rule start A next c with
      | halt h c₁ => exact ⟨h, c₁, rfl⟩
      | next c₁ =>
          rw [hstep] at hmoves
          cases hmoves with
          | @reduce r p vs popped rest _ hrule hstart hcut hvs hedge hlighter hat' hframes =>
              have hrest := hpath.drop popped.length
              rw [hcut, List.drop_left] at hrest
              refine ih (n := n) ?_ hat' hstops ?_
              · rw [hframes]
                exact ⟨hedge, hrest⟩
              · rw [hcut] at hfuel hlighter
                rw [load_append] at hfuel
                rw [hframes]
                simp only [load, top] at *
                omega
          | @shift q hquick haction hedge =>
              by_cases hhead : (next s).1.1 = stop
              · rw [hhead] at haction
                obtain ⟨r, p, hreduce, hrule, hlhs⟩ := hstop _ _ (live_top hpath) hquick haction
                obtain ⟨fuel, rfl⟩ : ∃ k, fuel = k + 1 := by
                  refine ⟨fuel - 1, ?_⟩
                  rw [Nat.mul_succ] at hfuel
                  omega
                obtain ⟨c₂, _, _, _, heq⟩ := step_reduce rule start (A := A) (r := r)
                  (at_none (⟨q, ⟨.terminal (next s).1.1, (next s).1.2⟩⟩ :: c.frames) (next s).2)
                  (.inl hreduce)
                obtain ⟨h, hhalt⟩ := reduce_halts (A := A) (c := c₂) hrule hlhs
                dsimp only
                rw [run, heq, hhalt]
                exact ⟨h, c₂, rfl⟩
              · cases n with
                | zero => exact absurd hstops hhead
                | succ n =>
                    have hlive := hheaviest q (.inr ⟨_, _, hedge⟩)
                    refine ih (n := n) ⟨hedge, hpath⟩ (at_none _ _)
                      (hstops.resolve_left hhead) ?_
                    rw [Nat.mul_succ] at hfuel
                    simp only [load, top] at *
                    omega

/-- Such a driver accepts without a token behind the word. -/
theorem Safe.run_fresh (hsafe : Safe rule start A edge weight extra)
    (heager : Eager rule start A edge) {fuel : Nat} {v : Val (.nonterminal start)}
    (hreached : Reached rule edge next s₀ w s c) (hfresh : Fresh c)
    (hrun : run rule start A next fuel c = some (.accept v, c')) : c'.ahead = none := by
  induction fuel generalizing c w s with
  | zero => cases hrun
  | succ fuel ih =>
      have hmoves := hsafe.step_moves hreached.path hreached.ahead
      rw [run] at hrun
      cases hstep : LR.step rule start A next c with
      | next c₁ =>
          rw [hstep] at hrun hmoves
          obtain ⟨w', s', hreached'⟩ := hreached.step hmoves
          exact ih hreached' (Fresh.step hmoves) hrun
      | halt h₁ c₁ =>
          rw [hstep] at hrun hmoves
          simp only [Option.some.injEq, Prod.mk.injEq] at hrun
          obtain ⟨rfl, rfl⟩ := hrun
          cases hmoves with
          | @accept r p vs _ _ hreduces hrule hvs hv _ hsame =>
              have hlhs : p.lhs = start := Symbol.nonterminal.inj (congrArg Sigma.fst hv)
              obtain ⟨hquick, t, hlast⟩ :=
                heager _ _ _ (live_top hreached.path) hreduces hrule hlhs
              rw [hsame hquick]
              cases hframes : c.frames with
              | nil =>
                  rw [hframes] at hvs
                  have hnil := congrArg (List.map Sigma.fst) hvs
                  rw [Vals.map_fst_toList] at hnil
                  rw [← hnil] at hlast
                  cases hlast
              | cons f rest =>
                  rw [hframes, symbols_cons] at hvs
                  have hcons := congrArg (List.map Sigma.fst) hvs
                  rw [Vals.map_fst_toList, List.map_append] at hcons
                  rw [← hcons] at hlast
                  simp only [List.map_cons, List.map_nil, List.getLast?_append,
                    List.getLast?_singleton, Option.some_or, Option.some.injEq] at hlast
                  exact hfresh f (by rw [hframes]; rfl) t hlast

end Runs

end LR
