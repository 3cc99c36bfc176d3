import RucDDBS.Library.LR

/-!
Every word of the grammar is accepted. The certificate gives each state its items: a
production, how much of it is on the stack, and a token that may follow it. An item must
move along the transition for its next symbol, start the productions of its next
nonterminal, and make its state reduce when it is complete. The driver then follows a
derivation from the first token to the last.
-/

namespace LR

open Grammar

variable {T N : Type} {Val : Symbol T N → Type} {σ : Type}

/-- What can be the first token from a list of symbols on, when `a` follows them. -/
def Starts (nullable : N → Prop) (first : N → T → Prop) : List (Symbol T N) → T → T → Prop
  | [], a, t => t = a
  | .terminal b :: _, _, t => t = b
  | .nonterminal B :: Xs, a, t => first B t ∨ nullable B ∧ Starts nullable first Xs a t

/-- `item q r d a`: the driver is in the state `q` with the first `d` symbols of the
production `r` on its stack, and `a` may come after that production. -/
structure Complete (rule : Nat → Option (Production Val)) (start : N) (A : Tables T N)
    (item : Nat → Nat → Nat → T → Prop) (nullable : N → Prop) (first : N → T → Prop) : Prop where
  starts : ∀ r p, rule r = some p → ∀ a t, Starts nullable first p.rhs a t →
    Starts nullable first [.nonterminal p.lhs] a t
  initial : ∀ r p, rule r = some p → p.lhs = start → ∀ a, item 0 r 0 a
  shifts : ∀ q r d a p t Xs, item q r d a → rule r = some p →
    p.rhs.drop d = .terminal t :: Xs →
      A.quick q = .look ∧ ∃ q', A.action q t = .shift q' ∧ item q' r (d + 1) a
  goes : ∀ q r d a p B Xs, item q r d a → rule r = some p →
    p.rhs.drop d = .nonterminal B :: Xs → B ≠ start ∧ item (A.goto q B) r (d + 1) a
  closed : ∀ q r d a p B Xs, item q r d a → rule r = some p →
    p.rhs.drop d = .nonterminal B :: Xs → ∀ r' p', rule r' = some p' → p'.lhs = B →
      ∀ b, Starts nullable first Xs a b → item q r' 0 b
  reduces : ∀ q r d a p, item q r d a → rule r = some p → p.rhs.drop d = [] →
    A.quick q = .reduce r ∨ A.quick q = .look ∧ A.action q a = .reduce r

section Following

variable {next : σ → Token Val × σ} {s s' : σ} {w : List (Token Val)}

/-- The first token from `s`. -/
def following (next : σ → Token Val × σ) (s : σ) : T := (next s).1.1

theorem Reads.cons_inv {t : T} {v : Val (.terminal t)}
    (h : Reads next s (⟨t, v⟩ :: w) s') : (next s).1 = ⟨t, v⟩ ∧ Reads next (next s).2 w s' := by
  generalize hw : (⟨t, v⟩ : Token Val) :: w = all at h
  cases h with
  | nil => cases hw
  | cons hrest =>
      obtain ⟨hhead, rfl⟩ := List.cons.inj hw
      exact ⟨hhead.symm, hrest⟩

variable {rule : Nat → Option (Production Val)} {start : N} {A : Tables T N}
  {item : Nat → Nat → Nat → T → Prop} {nullable : N → Prop} {first : N → T → Prop}
  {l : List (Valued Val)}

/-- Where the word of some symbols begins, `Starts` allows its first token. -/
theorem Complete.starts_of_derives (hc : Complete rule start A item nullable first)
    (h : Derives rule l w) (hreads : Reads next s w s') :
    Starts nullable first (l.map Sigma.fst) (following next s') (following next s) := by
  induction h generalizing s s' with
  | nil =>
      cases hreads
      exact rfl
  | terminal t v _ _ =>
      obtain ⟨hhead, _⟩ := hreads.cons_inv
      exact congrArg Sigma.fst hhead
  | @rule l u w r p vs hrule _ _ ihu ihl =>
      obtain ⟨s₁, hu, hw⟩ := hreads.split
      have hfirst := ihu hu
      rw [Vals.map_fst_toList] at hfirst
      rcases hc.starts r p hrule _ _ hfirst with hstarts | ⟨hnullable, heq⟩
      · exact .inl hstarts
      · refine .inr ⟨hnullable, ?_⟩
        rw [show following next s = following next s₁ from heq]
        exact ihl hw

end Following

section Completeness

variable [DecidableEq T] [DecidableEq N] {rule : Nat → Option (Production Val)} {start : N}
  {A : Tables T N} {next : σ → Token Val × σ} {c c' c'' : Config Val σ} {s s' : σ}
  {w : List (Token Val)} {l : List (Valued Val)}
  {item : Nat → Nat → Nat → T → Prop} {nullable : N → Prop} {first : N → T → Prop}

/-- The driver comes from `c` to `c'`. -/
inductive Leads (rule : Nat → Option (Production Val)) (start : N) (A : Tables T N)
    (next : σ → Token Val × σ) : Config Val σ → Config Val σ → Prop
  | refl (c : Config Val σ) : Leads rule start A next c c
  | head {c c' c'' : Config Val σ} : step rule start A next c = .next c' →
      Leads rule start A next c' c'' → Leads rule start A next c c''

theorem Leads.trans (h : Leads rule start A next c c') (h' : Leads rule start A next c' c'') :
    Leads rule start A next c c'' := by
  induction h with
  | refl _ => exact h'
  | head hstep _ ih => exact .head hstep (ih h')

theorem Leads.run {h : Halt Val start} (hleads : Leads rule start A next c c')
    (hhalt : step rule start A next c' = .halt h c'') :
    ∃ fuel, run rule start A next fuel c = some (h, c'') := by
  induction hleads with
  | refl c =>
      refine ⟨1, ?_⟩
      rw [LR.run, hhalt]
  | head hstep _ ih =>
      obtain ⟨fuel, hrun⟩ := ih hhalt
      refine ⟨fuel + 1, ?_⟩
      rw [LR.run, hstep]
      exact hrun

/-- More fuel changes nothing. -/
theorem run_mono {fuel more : Nat} {out : Halt Val start × Config Val σ}
    (h : run rule start A next fuel c = some out) (hle : fuel ≤ more) :
    run rule start A next more c = some out := by
  induction fuel generalizing c more with
  | zero => cases h
  | succ fuel ih =>
      obtain ⟨more, rfl⟩ : ∃ k, more = k + 1 := ⟨more - 1, by omega⟩
      rw [run] at h ⊢
      cases hstep : step rule start A next c with
      | next c₁ =>
          rw [hstep] at h
          exact ih h (by omega)
      | halt _ _ =>
          rw [hstep] at h
          exact h

theorem drop_succ {α : Type} {d : Nat} {l rest : List α} {x : α} (h : l.drop d = x :: rest) :
    l.drop (d + 1) = rest := by
  rw [← List.tail_drop, h]
  rfl

/-- From a state with the item the driver reads the word of the symbols behind the dot. It
has these symbols on its stack then, and the item is complete. -/
theorem Complete.leads (hc : Complete rule start A item nullable first) (h : Derives rule l w) :
    ∀ {c : Config Val σ} {s s' : σ} {r d : Nat} {p : Production Val}, At next c s →
      Reads next s w s' → rule r = some p → p.rhs.drop d = l.map Sigma.fst →
      item (top c.frames) r d (following next s') →
      ∃ c' popped d', Leads rule start A next c c' ∧ At next c' s' ∧
        c'.frames = popped ++ c.frames ∧ symbols popped = l ∧ p.rhs.drop d' = [] ∧
        item (top c'.frames) r d' (following next s') := by
  induction h with
  | nil =>
      intro c s s' r d p hat hreads hrule hdrop hitem
      cases hreads
      exact ⟨c, [], d, .refl c, hat, rfl, rfl, hdrop, hitem⟩
  | terminal t v _ ih =>
      intro c s s' r d p hat hreads hrule hdrop hitem
      obtain ⟨hhead, hrest⟩ := hreads.cons_inv
      obtain ⟨hquick, q, haction, hnext⟩ := hc.shifts _ _ _ _ _ _ _ hitem hrule hdrop
      have hstep := step_shift rule start hat hquick (q := q) (by rw [hhead]; exact haction)
      rw [hhead] at hstep
      obtain ⟨c', popped, d', hleads, hat', hframes, hsyms, hd', hitem'⟩ :=
        ih (at_none (⟨q, ⟨.terminal t, v⟩⟩ :: c.frames) (next s).2) hrest hrule
          (drop_succ hdrop) hnext
      refine ⟨c', popped ++ [⟨q, ⟨.terminal t, v⟩⟩], d', .head hstep hleads, hat', ?_, ?_, hd',
        hitem'⟩
      · rw [hframes, List.append_assoc]
        rfl
      · rw [symbols_append, hsyms]
        rfl
  | @rule l u w r' p' vs hrule' hu hl ihu ihl =>
      intro c s s' r d p hat hreads hrule hdrop hitem
      obtain ⟨s₁, hreadu, hreadw⟩ := hreads.split
      obtain ⟨hstart, hgoes⟩ := hc.goes _ _ _ _ _ _ _ hitem hrule hdrop
      have hfollow := hc.starts_of_derives hl hreadw
      have hclosed := hc.closed _ _ _ _ _ _ _ hitem hrule hdrop _ _ hrule' rfl _ hfollow
      -- the right-hand side of the production, then its reduction
      obtain ⟨c₁, popped₁, d₁, hleads₁, hat₁, hframes₁, hsyms₁, hd₁, hitem₁⟩ :=
        ihu (d := 0) hat hreadu hrule' (Vals.map_fst_toList vs).symm hclosed
      obtain ⟨c₂, hframes₂, hat₂, _, hstep⟩ := step_reduce rule start hat₁
        (hc.reduces _ _ _ _ _ hitem₁ hrule' hd₁)
      rw [reduce_next A hrule' hstart (hframes₂.trans hframes₁) hsyms₁] at hstep
      -- the symbols behind it
      obtain ⟨c', popped, d', hleads, hat', hframes, hsyms, hd', hitem'⟩ :=
        ihl (hat₂.with_frames (⟨_, ⟨.nonterminal p'.lhs, p'.action vs⟩⟩ :: c.frames)) hreadw hrule
          (drop_succ hdrop) hgoes
      refine ⟨c', popped ++ [⟨A.goto (top c.frames) p'.lhs, ⟨.nonterminal p'.lhs, p'.action vs⟩⟩],
        d', hleads₁.trans (.head hstep hleads), hat', ?_, ?_, hd', hitem'⟩
      · rw [hframes, List.append_assoc]
        rfl
      · rw [symbols_append, hsyms]
        rfl

/-- Every word of the grammar that a source begins with is accepted, and not a token behind
it is consumed. -/
theorem Complete.accepts (hc : Complete rule start A item nullable first)
    {v : Val (.nonterminal start)} (h : Derives rule [⟨.nonterminal start, v⟩] w)
    (hreads : Reads next s w s') :
    ∃ fuel c', At next c' s' ∧ run rule start A next fuel (LR.initial s) = some (.accept v, c') := by
  obtain ⟨r, p, vs, hrule, heq, hderives⟩ := h.of_nonterminal
  have hlhs : p.lhs = start := Symbol.nonterminal.inj (congrArg Sigma.fst heq)
  have hitem := hc.initial r p hrule hlhs (following next s')
  obtain ⟨c₁, popped, d, hleads, hat₁, hframes, hsyms, hd, hitem₁⟩ := hc.leads hderives
    (c := LR.initial s) (d := 0) (at_none [] s) hreads hrule
    (Vals.map_fst_toList vs).symm hitem
  obtain ⟨c₂, hframes₂, hat₂, _, hstep⟩ := step_reduce rule start hat₁
    (hc.reduces _ _ _ _ _ hitem₁ hrule hd)
  obtain ⟨v', hv', hreduce⟩ := reduce_start A hrule hlhs (hframes₂.trans hframes) hsyms
  have hv : v' = v := by
    have hsame := hv'.symm.trans heq
    cases hsame
    rfl
  rw [hv] at hreduce
  obtain ⟨fuel, hrun⟩ := hleads.run (hstep.trans hreduce)
  exact ⟨fuel, c₂, hat₂, hrun⟩

end Completeness

end LR
