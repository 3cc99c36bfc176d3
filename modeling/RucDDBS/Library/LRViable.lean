import RucDDBS.Library.LRCheck

/-!
What the driver has consumed is always the beginning of a word of the grammar. Every state
has an item that can be traced back: along the transitions into the state to the place
where its production began, and there to an item that waits for this production. So the
symbols of any stack can be completed, production by production, to the start symbol.
-/

namespace LR

open Grammar

variable {T N : Type} {Val : Symbol T N → Type} {σ : Type}

/-- `traced q r d k`: in the state `q` the first `d` symbols of the production `r` are on the
stack, and the items that wait for `r` lead back in `k` steps. -/
structure Traced (rule : Nat → Option (Production Val)) (start : N)
    (edge : Nat → Symbol T N → Nat → Prop) (traced : Nat → Nat → Nat → Nat → Prop) : Prop where
  bottom : ∀ p X, ¬ edge p X 0
  back : ∀ q r d k p, traced q r (d + 1) k → rule r = some p →
    q ≠ 0 ∧ ∀ q' X, edge q' X q → p.rhs[d]? = some X ∧ ∃ k', traced q' r d k'
  parent : ∀ q r k p, traced q r 0 k → rule r = some p → (p.lhs = start ∧ q = 0) ∨
    ∃ r' d' p' Xs k', traced q r' d' k' ∧ k' < k ∧ rule r' = some p' ∧
      p'.rhs.drop d' = .nonterminal p.lhs :: Xs
  live : ∀ q, Live edge q → ∃ r d k p, traced q r d k ∧ rule r = some p
  productive : ∀ X, ∃ v u, Derives rule [⟨X, v⟩] u

section Prefixes

variable {rule : Nat → Option (Production Val)} {start : N} {edge : Nat → Symbol T N → Nat → Prop}
  {traced : Nat → Nat → Nat → Nat → Prop}

/-- Any symbols stand for some word. -/
theorem Traced.exists_derives (ht : Traced rule start edge traced) (Xs : List (Symbol T N)) :
    ∃ (l : List (Valued Val)) (u : List (Token Val)), l.map Sigma.fst = Xs ∧ Derives rule l u := by
  induction Xs with
  | nil => exact ⟨[], [], rfl, .nil⟩
  | cons X Xs ih =>
      obtain ⟨v, u, hX⟩ := ht.productive X
      obtain ⟨l, w, rfl, hXs⟩ := ih
      exact ⟨⟨X, v⟩ :: l, u ++ w, rfl, hX.cons hXs⟩

/-- The symbols before the dot are on the stack, and the production began below them. -/
theorem Traced.peel (ht : Traced rule start edge traced) {frames : List (Frame Val)}
    {r d k : Nat} {p : Production Val} (hpath : Path edge frames) (hrule : rule r = some p)
    (hitem : traced (top frames) r d k) :
    ∃ popped rest k', frames = popped ++ rest ∧ popped.length = d ∧
      (symbols popped).map Sigma.fst = p.rhs.take d ∧ traced (top rest) r 0 k' ∧
      (d = 0 → k' = k) := by
  induction d generalizing frames k with
  | zero => exact ⟨[], frames, k, rfl, rfl, rfl, hitem, fun _ => rfl⟩
  | succ d ih =>
      obtain ⟨hne, hback⟩ := ht.back _ _ _ _ _ hitem hrule
      cases frames with
      | nil => exact absurd rfl hne
      | cons f rest =>
          obtain ⟨hsym, k', hbelow⟩ := hback _ _ hpath.1
          obtain ⟨popped, rest', k'', rfl, rfl, hsyms, hbegun, _⟩ := ih hpath.2 hbelow
          refine ⟨f :: popped, rest', k'', rfl, rfl, ?_, hbegun, fun h => absurd h (by omega)⟩
          rw [symbols_cons, List.map_append, hsyms, List.take_add_one, hsym]
          rfl

/-- From an item the stack is completed to the start symbol, whatever its remaining symbols
stand for. -/
theorem Traced.completes (ht : Traced rule start edge traced) {frames : List (Frame Val)}
    {r d k : Nat} {p : Production Val} {w u : List (Token Val)} {l : List (Valued Val)}
    (hpath : Path edge frames) (hrule : rule r = some p) (hitem : traced (top frames) r d k)
    (hw : Derives rule (symbols frames) w) (hl : l.map Sigma.fst = p.rhs.drop d)
    (hu : Derives rule l u) :
    ∃ u' v, Derives rule [⟨.nonterminal start, v⟩] (w ++ u ++ u') := by
  obtain ⟨popped, rest, k', hcut, hlength, hsyms, hbegun, hk⟩ := ht.peel hpath hrule hitem
  have hrest := hpath.drop popped.length
  rw [hcut, List.drop_left] at hrest
  rw [hcut, symbols_append] at hw
  obtain ⟨w₁, w₂, rfl, hw₁, hw₂⟩ := hw.split
  -- the production is complete: its left-hand side takes the place of its symbols
  have hfst : (symbols popped ++ l).map Sigma.fst = p.rhs := by
    rw [List.map_append, hsyms, hl, List.take_append_drop]
  obtain ⟨vs, hvs⟩ : ∃ vs : Vals Val p.rhs, vs.toList = symbols popped ++ l := by
    rw [← hfst]
    exact Vals.exists_toList_eq _
  have hlhs := Derives.single vs hrule (hvs ▸ hw₂.append hu)
  rcases ht.parent _ _ _ _ hbegun hrule with ⟨rfl, hzero⟩ | hparent
  · obtain rfl : rest = [] := by
      cases rest with
      | nil => rfl
      | cons f rest =>
          have hedge := hrest.1
          rw [show f.state = 0 from hzero] at hedge
          exact absurd hedge (ht.bottom _ _)
    cases hw₁
    refine ⟨[], p.action vs, ?_⟩
    rw [List.nil_append, List.append_nil]
    exact hlhs
  · obtain ⟨r', d', p', Xs, k'', hwaits, hlt, hrule', hdrop⟩ := hparent
    obtain ⟨l', u', hl', hu'⟩ := ht.exists_derives Xs
    have hsymbols : (⟨.nonterminal p.lhs, p.action vs⟩ :: l' : List (Valued Val)).map Sigma.fst =
        p'.rhs.drop d' := by
      rw [List.map_cons, hl', hdrop]
    have hless : rest.length < frames.length ∨ rest.length = frames.length ∧ k'' < k := by
      rw [hcut, List.length_append]
      by_cases hd : d = 0
      · exact .inr ⟨by omega, hk hd ▸ hlt⟩
      · exact .inl (by omega)
    obtain ⟨u'', v, hstart⟩ := Traced.completes ht hrest hrule' hwaits hw₁ hsymbols
      (hlhs.cons hu')
    refine ⟨u' ++ u'', v, ?_⟩
    simp only [List.append_assoc] at hstart ⊢
    exact hstart
termination_by (frames.length, k)
decreasing_by
  rw [Prod.lex_def]
  exact hless

/-- What the symbols of a stack stand for begins a word of the grammar. -/
theorem Traced.begins (ht : Traced rule start edge traced) {frames : List (Frame Val)}
    {w : List (Token Val)} (hpath : Path edge frames) (hw : Derives rule (symbols frames) w) :
    ∃ u v, Derives rule [⟨.nonterminal start, v⟩] (w ++ u) := by
  obtain ⟨r, d, k, p, hitem, hrule⟩ := ht.live _ (live_top hpath)
  obtain ⟨l, u, hl, hu⟩ := ht.exists_derives (p.rhs.drop d)
  obtain ⟨u', v, hstart⟩ := ht.completes hpath hrule hitem hw hl hu
  rw [List.append_assoc] at hstart
  exact ⟨u ++ u', v, hstart⟩

end Prefixes

section Rejection

/-- A list of tokens as a source, with one token again and again behind it. -/
def listSource (last : Token Val) : List (Token Val) → Token Val × List (Token Val)
  | [] => (last, [])
  | tok :: rest => (tok, rest)

theorem reads_listSource (last : Token Val) (u rest : List (Token Val)) :
    Reads (listSource last) (u ++ rest) u rest := by
  induction u with
  | nil => exact .nil rest
  | cons tok u ih => exact .cons ih

/-- Two sources with the same tokens have tokens of one kind next. -/
theorem Reads.same_kind {σ' : Type} {next : σ → Token Val × σ} {next' : σ' → Token Val × σ'}
    {s s' : σ} {s₂ s₂' : σ'} {x : List (Token Val)} (h : Reads next s x s')
    (h₂ : Reads next' s₂ x s₂') (hkind : (next' s₂').1.1 = (next s').1.1) :
    (next' s₂).1.1 = (next s).1.1 := by
  cases h with
  | nil =>
      cases h₂
      exact hkind
  | cons _ => rw [h₂.cons_inv.1]

variable [DecidableEq T] [DecidableEq N] {rule : Nat → Option (Production Val)} {start : N}
  {A : Tables T N} {edge : Nat → Symbol T N → Nat → Prop} {weight extra : Nat → Nat}
  {next : σ → Token Val × σ} {c c' : Config Val σ} {s s₀ : σ} {w : List (Token Val)}

/-- A reduction looks at the stack only. -/
theorem reduce_congr {σ' : Type} {c₂ : Config Val σ'} {r : Nat} (hframes : c₂.frames = c.frames)
    (h : LR.reduce rule start A c r = .next c') :
    LR.reduce rule start A c₂ r = .next { c₂ with frames := c'.frames } := by
  rw [LR.reduce] at h ⊢
  rw [hframes]
  split at h
  next => cases h
  next p hrule =>
    split at h
    next => cases h
    next vs hvs =>
      split at h
      next => cases h
      next hne =>
        obtain rfl := Outcome.next.inj h
        simp only [dif_neg hne]

theorem reduce_ne_reject {r : Nat} : LR.reduce rule start A c r ≠ .halt .reject c' := by
  intro h
  rw [LR.reduce] at h
  split at h
  next => cases h
  next =>
    split at h
    next => cases h
    next =>
      split at h
      next => cases h
      next => cases h

/-- The error that ends a run: the state has no use for the token, or for no token. -/
def Refuses (A : Tables T N) (next : σ → Token Val × σ) (s' : σ) (c' : Config Val σ) : Prop :=
  A.quick (top c'.frames) = .error ∨ A.quick (top c'.frames) = .look ∧
    c'.ahead = some (next s').1 ∧ A.action (top c'.frames) (next s').1.1 = .error

/-- What `c` reduces at the next token from `s`. -/
def ReducesAt (A : Tables T N) (next : σ → Token Val × σ) (s : σ) (frames : List (Frame Val))
    (r : Nat) : Prop :=
  A.quick (top frames) = .reduce r ∨
    A.quick (top frames) = .look ∧ A.action (top frames) (next s).1.1 = .reduce r

/-- A reduction that goes on keeps what is known. -/
theorem Safe.reached_reduce (hsafe : Safe rule start A edge weight extra)
    (hreached : Reached rule edge next s₀ w s c) {r : Nat}
    (hr : ReducesAt A next s c.frames r) {c₁ : Config Val σ} (hframes : c₁.frames = c.frames)
    (hat : At next c₁ s) (hsame : A.quick (top c.frames) = .reduce r → c₁ = c)
    (h : LR.reduce rule start A c₁ r = .next c') : Reached rule edge next s₀ w s c' := by
  have hreduces : Reduces A (top c.frames) r := hr.imp_right fun h => ⟨h.1, _, h.2⟩
  have hmoves := hsafe.reduce_moves hreached.path hreduces hframes hat hsame
  rw [h] at hmoves
  cases hmoves with
  | shift hquick haction _ =>
      rcases hr with hr | ⟨_, hr⟩
      · rw [hquick] at hr
        cases hr
      · rw [haction] at hr
        cases hr
  | @reduce r' p vs popped rest _ hrule _ hcut hvs hedge _ hat' hframes' =>
      have hderives := hreached.derives
      rw [hcut, symbols_append, hvs] at hderives
      have hpath := hreached.path.drop popped.length
      rw [hcut, List.drop_left] at hpath
      refine ⟨hreached.reads, hat', ?_, ?_⟩
      · rw [hframes', symbols_cons]
        exact hderives.reduce hrule
      · rw [hframes']
        exact ⟨hedge, hpath⟩

/-- The run from `c` rejects at `c'` because of what it consumed, `x`, and of the token behind
it: any other source with these tokens is rejected too. -/
def Rejects (rule : Nat → Option (Production Val)) (start : N) (A : Tables T N)
    (edge : Nat → Symbol T N → Nat → Prop) (next : σ → Token Val × σ) (s₀ : σ)
    (w : List (Token Val)) (s : σ) (c c' : Config Val σ) (fuel : Nat) : Prop :=
  ∃ x s', Reads next s x s' ∧ Reached rule edge next s₀ (w ++ x) s' c' ∧ Refuses A next s' c' ∧
    ∀ (σ' : Type) (next' : σ' → Token Val × σ') (c₂ : Config Val σ') (s₂ s₂' : σ'),
      c₂.frames = c.frames → At next' c₂ s₂ → Reads next' s₂ x s₂' →
      (next' s₂').1.1 = (next s').1.1 →
      ∃ c₂', run rule start A next' fuel c₂ = some (.reject, c₂')

theorem Rejects.reduce {r fuel : Nat} {c₀ c₁ : Config Val σ} (hr : ReducesAt A next s c.frames r)
    (hframes : c₀.frames = c.frames) (hout : LR.reduce rule start A c₀ r = .next c₁)
    (h : Rejects rule start A edge next s₀ w s c₁ c' fuel) :
    Rejects rule start A edge next s₀ w s c c' (fuel + 1) := by
  obtain ⟨x, s', hreads, hreached, hrefuses, helse⟩ := h
  refine ⟨x, s', hreads, hreached, hrefuses, ?_⟩
  intro σ' next' c₂ s₂ s₂' hframes₂ hat₂ hreads₂ hkind
  have hr₂ : ReducesAt A next' s₂ c₂.frames r := by
    rw [ReducesAt, hframes₂, hreads.same_kind hreads₂ hkind]
    exact hr
  obtain ⟨c₃, hframes₃, hat₃, _, hstep₂⟩ := step_reduce rule start hat₂ hr₂
  have hout₂ := reduce_congr (hframes₃.trans (hframes₂.trans hframes.symm)) hout
  rw [run, hstep₂, hout₂]
  exact helse σ' next' _ s₂ s₂' rfl (hat₃.with_frames _) hreads₂ hkind

theorem Rejects.shift {q fuel : Nat} (hquick : A.quick (top c.frames) = .look)
    (haction : A.action (top c.frames) (next s).1.1 = .shift q)
    (h : Rejects rule start A edge next s₀ (w ++ [(next s).1]) (next s).2
      ⟨⟨q, ⟨.terminal (next s).1.1, (next s).1.2⟩⟩ :: c.frames, none, (next s).2⟩ c' fuel) :
    Rejects rule start A edge next s₀ w s c c' (fuel + 1) := by
  obtain ⟨x, s', hreads, hreached, hrefuses, helse⟩ := h
  rw [List.append_assoc] at hreached
  refine ⟨(next s).1 :: x, s', .cons hreads, hreached, hrefuses, ?_⟩
  intro σ' next' c₂ s₂ s₂' hframes₂ hat₂ hreads₂ hkind
  obtain ⟨hhead, hrest⟩ := hreads₂.cons_inv
  have hstep₂ := step_shift rule start (A := A) (q := q) hat₂ (hframes₂ ▸ hquick)
    (by rw [hframes₂, hhead]; exact haction)
  rw [hhead] at hstep₂
  rw [run, hstep₂]
  exact helse σ' next' _ _ s₂' (congrArg (_ :: ·) hframes₂) (at_none _ _) hrest hkind

/-- A run that rejects has a cause. -/
theorem Safe.run_rejects (hsafe : Safe rule start A edge weight extra) {fuel : Nat}
    (hreached : Reached rule edge next s₀ w s c)
    (hrun : run rule start A next fuel c = some (.reject, c')) :
    Rejects rule start A edge next s₀ w s c c' fuel := by
  induction fuel generalizing c w s with
  | zero => cases hrun
  | succ fuel ih =>
      have hat := hreached.ahead
      have hreduce {r : Nat} (hr : ReducesAt A next s c.frames r) :
          Rejects rule start A edge next s₀ w s c c' (fuel + 1) := by
        obtain ⟨c₀, hframes, hat₀, hsame, hstep⟩ := step_reduce rule start hat hr
        rw [run, hstep] at hrun
        cases hout : LR.reduce rule start A c₀ r with
        | halt h c₁ =>
            rw [hout] at hrun
            obtain ⟨rfl, rfl⟩ := Prod.mk.inj (Option.some.inj hrun)
            exact absurd hout reduce_ne_reject
        | next c₁ =>
            rw [hout] at hrun
            have hreached₁ := hsafe.reached_reduce hreached hr hframes hat₀ hsame hout
            exact (ih hreached₁ hrun).reduce hr hframes hout
      cases hquick : A.quick (top c.frames) with
      | reduce r => exact hreduce (.inl hquick)
      | error =>
          have hstep : step rule start A next c = .halt .reject c := by
            rw [step, hquick]
          rw [run, hstep] at hrun
          obtain ⟨_, rfl⟩ := Prod.mk.inj (Option.some.inj hrun)
          refine ⟨[], s, .nil s, ?_, .inl hquick, ?_⟩
          · rw [List.append_nil]
            exact hreached
          · intro σ' next' c₂ s₂ s₂' hframes₂ _ _ _
            refine ⟨c₂, ?_⟩
            rw [run, step, hframes₂, hquick]
      | look =>
          cases haction : A.action (top c.frames) (next s).1.1 with
          | reduce r => exact hreduce (.inr ⟨hquick, haction⟩)
          | error =>
              have hstep : step rule start A next c =
                  .halt .reject ⟨c.frames, some (next s).1, (next s).2⟩ := by
                rw [step, hquick]
                dsimp only
                rw [peek_of_at hat, haction]
              rw [run, hstep] at hrun
              obtain ⟨_, rfl⟩ := Prod.mk.inj (Option.some.inj hrun)
              refine ⟨[], s, .nil s, ?_, .inr ⟨hquick, rfl, haction⟩, ?_⟩
              · rw [List.append_nil]
                exact ⟨hreached.reads, at_some c.frames s, hreached.derives, hreached.path⟩
              · intro σ' next' c₂ s₂ s₂' hframes₂ hat₂ hreads₂ hkind
                cases hreads₂
                obtain ⟨c₂', _, _, hstep₂⟩ := step_error rule start (A := A) hat₂
                  (hframes₂ ▸ hquick) (by rw [hframes₂, hkind]; exact haction)
                refine ⟨c₂', ?_⟩
                rw [run, hstep₂]
          | shift q =>
              have hedge := hsafe.shift _ _ _ (live_top hreached.path) hquick haction
              rw [run, step_shift rule start hat hquick haction] at hrun
              have hreached₁ : Reached rule edge next s₀ (w ++ [(next s).1]) (next s).2
                  ⟨⟨q, ⟨.terminal (next s).1.1, (next s).1.2⟩⟩ :: c.frames, none, (next s).2⟩ := by
                refine ⟨hreached.reads.snoc, at_none _ _, ?_, hedge, hreached.path⟩
                rw [symbols_cons]
                exact hreached.derives.snoc_terminal _ _
              exact (ih hreached₁ hrun).shift hquick haction

variable {item : Nat → Nat → Nat → T → Prop} {nullable : N → Prop} {first : N → T → Prop}
  {traced : Nat → Nat → Nat → Nat → Prop}

/-- An error is found at the first token that no word of the grammar has there: what was
consumed before it begins one. -/
theorem Safe.reject_early (hsafe : Safe rule start A edge weight extra)
    (hc : Complete rule start A item nullable first) (ht : Traced rule start edge traced)
    {fuel : Nat} (hrun : run rule start A next fuel (initial s) = some (.reject, c')) :
    ∃ x s', Reached rule edge next s x s' c' ∧ Refuses A next s' c' ∧
      (∃ u v, Derives rule [⟨.nonterminal start, v⟩] (x ++ u)) ∧
      ∀ tok u v, tok.1 = (next s').1.1 →
        ¬ Derives rule [⟨.nonterminal start, v⟩] (x ++ tok :: u) := by
  obtain ⟨x, s', _, hreached, hrefuses, helse⟩ := hsafe.run_rejects (reached_initial s) hrun
  rw [List.nil_append] at hreached
  refine ⟨x, s', hreached, hrefuses, ht.begins hreached.path hreached.derives, ?_⟩
  intro tok u v hkind hderives
  -- the word as a source of its own would be accepted and rejected
  have hreads := reads_listSource tok (x ++ tok :: u) []
  rw [List.append_nil] at hreads
  obtain ⟨fuel', c₁, _, haccept⟩ := hc.accepts hderives hreads
  obtain ⟨c₂, hreject⟩ := helse _ (listSource tok) (initial (x ++ tok :: u)) _ (tok :: u) rfl
    (at_none [] _) (reads_listSource tok x (tok :: u)) hkind
  have hboth := run_mono haccept (Nat.le_max_left fuel' fuel)
  rw [run_mono hreject (Nat.le_max_right fuel' fuel)] at hboth
  cases hboth

end Rejection

namespace Certificate

section Levels

variable (cert : Certificate T N) (rule : Nat → Option (Production Val)) (start : N)

/-- The items of a state with a symbol before the dot; the first state has the productions of
the start symbol instead. -/
def kernel (q : Nat) : List (Nat × Nat) :=
  if q = 0 then (cert.productions start).map fun r => (r, 0)
  else ((cert.itemsOf q).filter fun e => e.dot != 0).map fun e => (e.rule, e.dot)

/-- The productions that an item waits for. -/
def awaited (e : Nat × Nat) : List (Nat × Nat) :=
  match (rule e.1).bind fun p => (p.rhs.drop e.2).head? with
  | some (.nonterminal B) => (cert.productions B).map fun r => (r, 0)
  | _ => []

/-- The items of a state that are `k` steps away from its kernel. -/
def level (q : Nat) : Nat → List (Nat × Nat)
  | 0 => cert.kernel start q
  | k + 1 => (level q k).flatMap (cert.awaited rule)

variable [DecidableEq T] [DecidableEq N]

/-- The item without its last symbol is in all states before. -/
def backCheck (depth q : Nat) (e : Nat × Nat) : Bool :=
  (rule e.1).isSome && (e.2 == 0 || (cert.predsOf q).all fun edge =>
    ((rule e.1).any fun p => decide (p.rhs[e.2 - 1]? = some edge.2)) &&
      (List.range depth).any fun k => decide ((e.1, e.2 - 1) ∈ cert.level rule start edge.1 k))

/-- The productions of a nonterminal have it on their left-hand sides. -/
def ownCheck (B : N) : Bool :=
  (cert.productions B).all fun r => (rule r).all fun p => decide (p.lhs = B)

/-- Every state that can be entered has a kernel, and its items come from the states before. -/
def tracedCheck (depth : Nat) : Bool :=
  cert.ownCheck rule start && !cert.preds.isEmpty &&
    cert.numbers.all (fun r => (rule r).all fun p => p.rhs.all fun X =>
      match X with
      | .terminal _ => true
      | .nonterminal B => cert.ownCheck rule B) &&
    (List.range cert.preds.length).all fun q => (q != 0 && (cert.predsOf q).isEmpty) ||
      (!(cert.kernel start q).isEmpty &&
        (cert.kernel start q).all (cert.backCheck rule start depth q))

end Levels

section Soundness

variable {cert : Certificate T N} {rule : Nat → Option (Production Val)} {start : N} {depth : Nat}

theorem level_dot {q k r d : Nat} (h : (r, d + 1) ∈ cert.level rule start q k) :
    q ≠ 0 ∧ (r, d + 1) ∈ cert.kernel start q := by
  cases k with
  | zero =>
      refine ⟨?_, h⟩
      rintro rfl
      rw [level, kernel, if_pos rfl] at h
      obtain ⟨_, _, heq⟩ := List.mem_map.mp h
      cases heq
  | succ k =>
      rw [level] at h
      obtain ⟨e, _, he⟩ := List.mem_flatMap.mp h
      rw [awaited] at he
      split at he
      next =>
        obtain ⟨_, _, heq⟩ := List.mem_map.mp he
        cases heq
      next => cases he

theorem mem_awaited {e : Nat × Nat} {r d : Nat} (h : (r, d) ∈ cert.awaited rule e) :
    ∃ p B Xs, rule e.1 = some p ∧ p.rhs.drop e.2 = .nonterminal B :: Xs ∧
      r ∈ cert.productions B := by
  rw [awaited] at h
  split at h
  next B heq =>
    obtain ⟨p, hrule, hhead⟩ := Option.bind_eq_some_iff.mp heq
    obtain ⟨Xs, hdrop⟩ := List.head?_eq_some_iff.mp hhead
    obtain ⟨r', hr', hsame⟩ := List.mem_map.mp h
    obtain ⟨rfl, _⟩ := Prod.mk.inj hsame
    exact ⟨p, B, Xs, hrule, hdrop, hr'⟩
  next => cases h

variable [DecidableEq N]

theorem lhs_of_ownCheck {B : N} (h : cert.ownCheck rule B = true) {r : Nat}
    {p : Production Val} (hr : r ∈ cert.productions B) (hrule : rule r = some p) : p.lhs = B := by
  have hall := List.all_eq_true.mp h r hr
  rw [hrule, Option.all_some, decide_eq_true_eq] at hall
  exact hall

variable [DecidableEq T]

/-- The parts of `tracedCheck`. -/
structure TracedChecked (cert : Certificate T N) (rule : Nat → Option (Production Val)) (start : N)
    (depth : Nat) : Prop where
  own : cert.ownCheck rule start = true
  rules : ∀ r ∈ cert.numbers, ∀ p, rule r = some p → ∀ B, .nonterminal B ∈ p.rhs →
    cert.ownCheck rule B = true
  entered : ∀ q, Live cert.edge q → cert.kernel start q ≠ [] ∧
    ∀ e ∈ cert.kernel start q, cert.backCheck rule start depth q e = true

theorem tracedChecked_of_check (h : cert.tracedCheck rule start depth = true) :
    TracedChecked cert rule start depth := by
  simp only [tracedCheck, Bool.and_eq_true, List.all_eq_true, List.mem_range, Bool.or_eq_true,
    Bool.not_eq_true', List.isEmpty_eq_false_iff, List.isEmpty_iff, bne_iff_ne] at h
  obtain ⟨⟨⟨hstart, hsize⟩, hrules⟩, hstates⟩ := h
  refine ⟨hstart, ?_, ?_⟩
  · intro r hr p hrule B hB
    have hall := hrules r hr
    rw [hrule, Option.all_some] at hall
    exact List.all_eq_true.mp hall _ hB
  · intro q hq
    rcases hq with rfl | ⟨p, X, hedge⟩
    · exact (hstates 0 (List.length_pos_iff.mpr hsize)).resolve_left fun h => h.1 rfl
    · refine (hstates q (lt_of_edge cert hedge)).resolve_left ?_
      rintro ⟨_, hempty⟩
      rw [edge, hempty] at hedge
      cases hedge

theorem TracedChecked.traced (hchecked : TracedChecked cert rule start depth)
    (hbottom : cert.predsOf 0 = []) (hnumbers : ∀ r p, rule r = some p → r ∈ cert.numbers)
    (hproductive : ∀ X, ∃ v u, Derives rule [⟨X, v⟩] u) :
    Traced rule start cert.edge fun q r d k => (r, d) ∈ cert.level rule start q k where
  bottom := by
    intro p X hedge
    rw [edge, hbottom] at hedge
    cases hedge
  back := by
    intro q r d k p hitem hrule
    obtain ⟨hne, hkernel⟩ := level_dot hitem
    refine ⟨hne, fun q' X hedge => ?_⟩
    have hback := (hchecked.entered q (.inr ⟨q', X, hedge⟩)).2 _ hkernel
    simp only [backCheck, Bool.and_eq_true, Bool.or_eq_true, beq_iff_eq, Nat.succ_ne_zero,
      false_or, List.all_eq_true, hrule, Option.any_some, decide_eq_true_eq, Nat.add_sub_cancel,
      List.any_eq_true] at hback
    obtain ⟨hsym, k', _, hbefore⟩ := hback.2 _ hedge
    exact ⟨hsym, k', hbefore⟩
  parent := by
    intro q r k p hitem hrule
    cases k with
    | zero =>
        rw [level, kernel] at hitem
        split at hitem
        next hzero =>
          obtain ⟨r', hr', heq⟩ := List.mem_map.mp hitem
          obtain ⟨rfl, _⟩ := Prod.mk.inj heq
          exact .inl ⟨lhs_of_ownCheck hchecked.own hr' hrule, hzero⟩
        next =>
          obtain ⟨e, he, heq⟩ := List.mem_map.mp hitem
          have hdot := bne_iff_ne.mp (List.mem_filter.mp he).2
          exact absurd (Prod.mk.inj heq).2 hdot
    | succ k =>
        rw [level] at hitem
        obtain ⟨e, he, hawaited⟩ := List.mem_flatMap.mp hitem
        obtain ⟨p', B, Xs, hrule', hdrop, hr⟩ := mem_awaited hawaited
        have hmem : Symbol.nonterminal B ∈ p'.rhs :=
          List.mem_of_mem_drop (hdrop ▸ List.mem_cons_self)
        have hown := hchecked.rules e.1 (hnumbers _ _ hrule') p' hrule' B hmem
        rw [lhs_of_ownCheck hown hr hrule]
        exact .inr ⟨e.1, e.2, p', Xs, k, he, Nat.lt_succ_self k, hrule', hdrop⟩
  live := by
    intro q hq
    obtain ⟨hne, hall⟩ := hchecked.entered q hq
    obtain ⟨e, rest, hkernel⟩ := List.exists_cons_of_ne_nil hne
    have hmem : e ∈ cert.kernel start q := hkernel ▸ List.mem_cons_self
    have hsome := hall e hmem
    rw [backCheck, Bool.and_eq_true] at hsome
    obtain ⟨p, hrule⟩ := Option.isSome_iff_exists.mp hsome.1
    exact ⟨e.1, e.2, 0, p, hmem, hrule⟩
  productive := hproductive

end Soundness

end Certificate

end LR
