import RucDDBS.Library.LRItems

/-!
A certificate for given tables, in a form that can be computed with: transitions and items
as lists, sets of tokens as the bits of a number. What `check` accepts, satisfies all that
the driver needs.
-/

namespace LR

open Grammar

variable {T N : Type} {Val : Symbol T N → Type}

/-- An item together with all tokens that may follow it. -/
structure Entry where
  rule : Nat
  dot : Nat
  ahead : Nat

/-- A row for each state. The transitions into a state are in its row of `preds`; the
numbers `code` of the tokens are their bits. -/
structure Certificate (T N : Type) where
  code : T → Nat
  tokens : List T
  numbers : List Nat
  productions : N → List Nat
  preds : List (List (Nat × Symbol T N))
  items : List (List Entry)
  nullable : N → Bool
  first : N → Nat
  weights : List Nat
  extras : List Nat
  depths : List Nat
  heaviest : Nat

namespace Certificate

section Rows

variable (cert : Certificate T N) (q : Nat)

def predsOf : List (Nat × Symbol T N) := cert.preds[q]?.getD []

def itemsOf : List Entry := cert.items[q]?.getD []

def weight : Nat := cert.weights[q]?.getD 0

def extra : Nat := cert.extras[q]?.getD 0

def depth : Nat := cert.depths[q]?.getD 0

def edge (p : Nat) (X : Symbol T N) (q : Nat) : Prop := (p, X) ∈ cert.predsOf q

def item (q r d : Nat) (a : T) : Prop :=
  ∃ e ∈ cert.itemsOf q, e.rule = r ∧ e.dot = d ∧ e.ahead.testBit (cert.code a) = true

theorem lt_of_edge {p : Nat} {X : Symbol T N} {q : Nat} (h : cert.edge p X q) :
    q < cert.preds.length := by
  by_contra hle
  rw [edge, predsOf, List.getElem?_eq_none (Nat.le_of_not_lt hle)] at h
  cases h

end Rows

section Checks

variable [DecidableEq T] [DecidableEq N] (cert : Certificate T N)
  (rule : Nat → Option (Production Val)) (start : N) (A : Tables T N)

def popsCheck (K : Nat → Nat → Bool) : List (Symbol T N) → Nat → Nat → Bool
  | [], popped, q => K popped q
  | X :: Xs, popped, q => q != 0 && (cert.predsOf q).all fun e =>
      decide (e.2 = X) && popsCheck K Xs (popped + cert.weight q) e.1

def landsCheck (lhs : N) (q popped below : Nat) : Bool :=
  if lhs = start then below == 0
  else
    let target := A.goto below lhs
    decide ((below, .nonterminal lhs) ∈ cert.predsOf target) &&
      decide (cert.weight target + cert.extra target < popped + cert.extra q)

def reduceCheck (q r : Nat) : Bool :=
  match rule r with
  | none => false
  | some p => cert.popsCheck (cert.landsCheck start A p.lhs q) p.rhs.reverse 0 q

def actionCheck (q : Nat) (t : T) : Bool :=
  match A.action q t with
  | .shift target => decide ((q, .terminal t) ∈ cert.predsOf target)
  | .reduce r => cert.reduceCheck rule start A q r
  | .error => true

def stateCheck (q : Nat) : Bool :=
  decide (cert.weight q + cert.extra q ≤ cert.heaviest) &&
    (cert.predsOf q).all (fun e => decide (cert.depth e.1 < cert.depth q)) &&
    match A.quick q with
    | .reduce r => cert.reduceCheck rule start A q r
    | .error => true
    | .look => cert.tokens.all (cert.actionCheck rule start A q)

def startsMask : List (Symbol T N) → Nat → Nat
  | [], mask => mask
  | .terminal b :: _, _ => 1 <<< cert.code b
  | .nonterminal B :: Xs, mask =>
      cert.first B ||| if cert.nullable B then startsMask Xs mask else 0

def nullableAll : List (Symbol T N) → Bool
  | [] => true
  | .terminal _ :: _ => false
  | .nonterminal B :: Xs => cert.nullable B && nullableAll Xs

def hasItem (q r d mask : Nat) : Bool :=
  (cert.itemsOf q).any fun e => e.rule == r && e.dot == d && mask &&& e.ahead == mask

def entryCheck (q : Nat) (e : Entry) : Bool :=
  match rule e.rule with
  | none => true
  | some p =>
      match p.rhs.drop e.dot with
      | [] =>
          match A.quick q with
          | .reduce r => r == e.rule
          | .error => false
          | .look => cert.tokens.all fun t =>
              !e.ahead.testBit (cert.code t) || decide (A.action q t = .reduce e.rule)
      | .terminal t :: _ =>
          decide (A.quick q = .look) &&
            match A.action q t with
            | .shift target => cert.hasItem target e.rule (e.dot + 1) e.ahead
            | _ => false
      | .nonterminal B :: Xs =>
          decide (B ≠ start) && cert.hasItem (A.goto q B) e.rule (e.dot + 1) e.ahead &&
            (cert.productions B).all fun r => cert.hasItem q r 0 (cert.startsMask Xs e.ahead)

def ruleCheck (r : Nat) : Bool :=
  match rule r with
  | none => true
  | some p =>
      decide (r ∈ cert.productions p.lhs) &&
        (cert.startsMask p.rhs 0 &&& cert.first p.lhs == cert.startsMask p.rhs 0) &&
        (!cert.nullableAll p.rhs || cert.nullable p.lhs) &&
        (decide (p.lhs ≠ start) || (cert.itemsOf 0).any fun e => e.rule == r && e.dot == 0 &&
          cert.tokens.all fun t => e.ahead.testBit (cert.code t))

/-- The token `stop` is only shifted to states that end the parse. -/
def stopCheck (stop : T) (q : Nat) : Bool :=
  match A.quick q, A.action q stop with
  | .look, .shift target =>
      match A.quick target with
      | .reduce r => (rule r).any fun p => decide (p.lhs = start)
      | _ => false
  | _, _ => true

/-- A state without transitions into it, other than the first, is never entered. -/
def check (stop : T) : Bool :=
  cert.numbers.all (cert.ruleCheck rule start) && !cert.preds.isEmpty &&
    (cert.predsOf 0).isEmpty &&
    (List.range cert.items.length).all (fun q =>
      (cert.itemsOf q).all (cert.entryCheck rule start A q)) &&
    (List.range cert.preds.length).all fun q => (q != 0 && (cert.predsOf q).isEmpty) ||
      (cert.stateCheck rule start A q && stopCheck rule start A stop q)

end Checks

section Masks

variable {cert : Certificate T N}

/-- The nonterminals that can vanish. -/
def Nullable (cert : Certificate T N) (B : N) : Prop := cert.nullable B = true

/-- The tokens with which a nonterminal can begin. -/
def First (cert : Certificate T N) (B : N) (t : T) : Prop :=
  (cert.first B).testBit (cert.code t) = true

/-- The bits of one number are among those of another. -/
theorem testBit_of_and_eq {mask ahead i : Nat} (h : mask &&& ahead = mask)
    (hi : mask.testBit i = true) : ahead.testBit i = true := by
  rw [← h, Nat.testBit_and, Bool.and_eq_true] at hi
  exact hi.2

theorem testBit_startsMask {Xs : List (Symbol T N)} {mask : Nat} {a t : T}
    (h : Starts cert.Nullable cert.First Xs a t) (ha : mask.testBit (cert.code a) = true) :
    (cert.startsMask Xs mask).testBit (cert.code t) = true := by
  induction Xs with
  | nil =>
      rw [show t = a from h]
      exact ha
  | cons X Xs ih =>
      cases X with
      | terminal b =>
          rw [show t = b from h, startsMask, Nat.one_shiftLeft]
          exact Nat.testBit_two_pow_self
      | nonterminal B =>
          rw [startsMask, Nat.testBit_or, Bool.or_eq_true]
          rcases h with hfirst | ⟨hnullable, hrest⟩
          · exact .inl hfirst
          · rw [if_pos (show cert.nullable B = true from hnullable)]
            exact .inr (ih hrest)

/-- What begins a list of symbols is one of their own first tokens, unless all can vanish. -/
theorem startsMask_or_nullable {Xs : List (Symbol T N)} {a t : T}
    (h : Starts cert.Nullable cert.First Xs a t) :
    (cert.startsMask Xs 0).testBit (cert.code t) = true ∨ cert.nullableAll Xs = true ∧ t = a := by
  induction Xs with
  | nil => exact .inr ⟨rfl, h⟩
  | cons X Xs ih =>
      cases X with
      | terminal b =>
          rw [show t = b from h, startsMask, Nat.one_shiftLeft]
          exact .inl Nat.testBit_two_pow_self
      | nonterminal B =>
          rw [startsMask, Nat.testBit_or, Bool.or_eq_true, nullableAll, Bool.and_eq_true]
          rcases h with hfirst | ⟨hnullable, hrest⟩
          · exact .inl (.inl hfirst)
          · rw [if_pos (show cert.nullable B = true from hnullable)]
            rcases ih hrest with hbit | ⟨hall, heq⟩
            · exact .inl (.inr hbit)
            · exact .inr ⟨⟨hnullable, hall⟩, heq⟩

theorem item_of_hasItem {q r d mask : Nat} {a : T} (h : cert.hasItem q r d mask = true)
    (ha : mask.testBit (cert.code a) = true) : cert.item q r d a := by
  obtain ⟨e, he, heq⟩ := List.any_eq_true.mp h
  simp only [Bool.and_eq_true, beq_iff_eq] at heq
  obtain ⟨⟨hrule, hdot⟩, hmask⟩ := heq
  exact ⟨e, he, hrule, hdot, testBit_of_and_eq hmask ha⟩

end Masks

section Soundness

variable [DecidableEq T] [DecidableEq N] {cert : Certificate T N}
  {rule : Nat → Option (Production Val)} {start : N} {A : Tables T N} {stop : T}

/-- The parts of `check`. -/
structure Checked (cert : Certificate T N) (rule : Nat → Option (Production Val)) (start : N)
    (A : Tables T N) (stop : T) : Prop where
  rules : ∀ r ∈ cert.numbers, cert.ruleCheck rule start r = true
  bottom : cert.predsOf 0 = []
  items : ∀ q, ∀ e ∈ cert.itemsOf q, cert.entryCheck rule start A q e = true
  states : ∀ q, Live cert.edge q → cert.stateCheck rule start A q = true
  stops : ∀ q, Live cert.edge q → stopCheck rule start A stop q = true

theorem checked_of_check (h : cert.check rule start A stop = true) :
    Checked cert rule start A stop := by
  simp only [check, Bool.and_eq_true, List.all_eq_true, List.mem_range, Bool.or_eq_true,
    Bool.not_eq_true', List.isEmpty_eq_false_iff, List.isEmpty_iff, bne_iff_ne] at h
  obtain ⟨⟨⟨⟨hrules, hsize⟩, hbottom⟩, hitems⟩, hstates⟩ := h
  have hlive : ∀ q, Live cert.edge q →
      cert.stateCheck rule start A q = true ∧ stopCheck rule start A stop q = true := by
    intro q hq
    rcases hq with rfl | ⟨p, X, hedge⟩
    · exact (hstates 0 (List.length_pos_iff.mpr hsize)).resolve_left fun h => h.1 rfl
    · refine (hstates q (lt_of_edge cert hedge)).resolve_left ?_
      rintro ⟨_, hempty⟩
      rw [edge, hempty] at hedge
      cases hedge
  refine ⟨hrules, hbottom, ?_, fun q hq => (hlive q hq).1, fun q hq => (hlive q hq).2⟩
  intro q e he
  by_cases hlt : q < cert.items.length
  · exact hitems q hlt e he
  · rw [itemsOf, List.getElem?_eq_none (Nat.le_of_not_lt hlt)] at he
    cases he

theorem pops_of_check {K : Nat → Nat → Prop} {k : Nat → Nat → Bool}
    (hk : ∀ popped q, k popped q = true → K popped q) (Xs : List (Symbol T N)) {popped q : Nat}
    (h : cert.popsCheck k Xs popped q = true) : Pops cert.edge cert.weight K Xs popped q := by
  induction Xs generalizing popped q with
  | nil => exact hk popped q h
  | cons X Xs ih =>
      simp only [popsCheck, Bool.and_eq_true, bne_iff_ne, List.all_eq_true,
        decide_eq_true_eq] at h
      refine ⟨h.1, ?_⟩
      intro p Y hedge
      obtain ⟨hsym, hrest⟩ := h.2 _ hedge
      exact ⟨hsym, ih hrest⟩

theorem lands_of_check (p : Production Val) {q popped below : Nat}
    (h : cert.landsCheck start A p.lhs q popped below = true) :
    Lands start A cert.edge cert.weight cert.extra p q popped below := by
  rw [landsCheck] at h
  constructor
  · intro hstart
    rw [if_pos hstart] at h
    exact beq_iff_eq.mp h
  · intro hstart
    rw [if_neg hstart] at h
    simp only [Bool.and_eq_true, decide_eq_true_eq] at h
    exact h

theorem reduce_of_check {q r : Nat} (h : cert.reduceCheck rule start A q r = true) :
    ∃ p, rule r = some p ∧ Pops cert.edge cert.weight
      (Lands start A cert.edge cert.weight cert.extra p q) p.rhs.reverse 0 q := by
  rw [reduceCheck] at h
  cases hrule : rule r with
  | none =>
      rw [hrule] at h
      cases h
  | some p =>
      rw [hrule] at h
      exact ⟨p, rfl, pops_of_check (fun _ _ => lands_of_check p) _ h⟩

namespace Checked

variable (hchecked : Checked cert rule start A stop)

include hchecked

theorem heaviest {q : Nat} (hq : Live cert.edge q) :
    cert.weight q + cert.extra q ≤ cert.heaviest := by
  have h := hchecked.states q hq
  simp only [stateCheck, Bool.and_eq_true, decide_eq_true_eq] at h
  exact h.1.1

theorem deep (p : Nat) (X : Symbol T N) (q : Nat) (hedge : cert.edge p X q) :
    cert.depth p < cert.depth q := by
  have h := hchecked.states q (.inr ⟨p, X, hedge⟩)
  simp only [stateCheck, Bool.and_eq_true, List.all_eq_true, decide_eq_true_eq] at h
  exact h.1.2 _ hedge

theorem action (htokens : ∀ t, t ∈ cert.tokens) {q : Nat} (hq : Live cert.edge q)
    (hlook : A.quick q = .look) (t : T) : cert.actionCheck rule start A q t = true := by
  have h := hchecked.states q hq
  simp only [stateCheck, hlook, Bool.and_eq_true, List.all_eq_true] at h
  exact h.2 t (htokens t)

theorem safe (htokens : ∀ t, t ∈ cert.tokens) :
    Safe rule start A cert.edge cert.weight cert.extra where
  bottom := by
    intro p X hedge
    rw [edge, hchecked.bottom] at hedge
    cases hedge
  shift := by
    intro q t q' hq hlook hshift
    have h := hchecked.action htokens hq hlook t
    rw [actionCheck, hshift] at h
    have hmem : (q, Symbol.terminal t) ∈ cert.predsOf q' := decide_eq_true_eq.mp h
    exact hmem
  reduce := by
    intro q r hq hreduces
    rcases hreduces with hquick | ⟨hlook, t, hreduce⟩
    · have h := hchecked.states q hq
      simp only [stateCheck, hquick, Bool.and_eq_true] at h
      exact reduce_of_check h.2
    · have h := hchecked.action htokens hq hlook t
      rw [actionCheck, hreduce] at h
      exact reduce_of_check h

theorem endsAt : EndsAt rule start A cert.edge stop := by
  intro q q' hq hlook hshift
  have h := hchecked.stops q hq
  simp only [stopCheck, hlook, hshift] at h
  cases hquick : A.quick q' with
  | reduce r =>
      rw [hquick] at h
      obtain ⟨p, hrule, hstart⟩ := (Option.any_eq_true _ _).mp h
      exact ⟨r, p, rfl, hrule, of_decide_eq_true hstart⟩
  | error =>
      rw [hquick] at h
      cases h
  | look =>
      rw [hquick] at h
      cases h

end Checked

namespace Checked

variable (hchecked : Checked cert rule start A stop)

include hchecked

/-- What the check says of the item of an entry. -/
theorem entry {q r d : Nat} {a : T} {p : Production Val} (hitem : cert.item q r d a)
    (hrule : rule r = some p) :
    ∃ ahead, ahead.testBit (cert.code a) = true ∧
      cert.entryCheck rule start A q ⟨r, d, ahead⟩ = true := by
  obtain ⟨⟨_, _, ahead⟩, he, rfl, rfl, ha⟩ := hitem
  exact ⟨ahead, ha, hchecked.items q _ he⟩

theorem complete (htokens : ∀ t, t ∈ cert.tokens)
    (hnumbers : ∀ r p, rule r = some p → r ∈ cert.numbers) :
    Complete rule start A cert.item cert.Nullable cert.First where
  starts := by
    intro r p hrule a t h
    have hcheck := hchecked.rules r (hnumbers r p hrule)
    simp only [ruleCheck, hrule, Bool.and_eq_true, beq_iff_eq, Bool.or_eq_true,
      Bool.not_eq_true'] at hcheck
    obtain ⟨⟨⟨_, hfirst⟩, hnullable⟩, _⟩ := hcheck
    rcases startsMask_or_nullable h with hbit | ⟨hall, heq⟩
    · exact .inl (testBit_of_and_eq hfirst hbit)
    · refine .inr ⟨hnullable.resolve_left ?_, heq⟩
      rw [hall]
      exact Bool.noConfusion
  initial := by
    intro r p hrule hstart a
    have hcheck := hchecked.rules r (hnumbers r p hrule)
    simp only [ruleCheck, hrule, Bool.and_eq_true, Bool.or_eq_true, decide_eq_true_eq] at hcheck
    obtain ⟨e, he, heq⟩ := List.any_eq_true.mp (hcheck.2.resolve_left fun h => h hstart)
    simp only [Bool.and_eq_true, beq_iff_eq, List.all_eq_true] at heq
    exact ⟨e, he, heq.1.1, heq.1.2, heq.2 a (htokens a)⟩
  shifts := by
    intro q r d a p t Xs hitem hrule hdrop
    obtain ⟨ahead, ha, hcheck⟩ := hchecked.entry hitem hrule
    simp only [entryCheck, hrule, hdrop, Bool.and_eq_true, decide_eq_true_eq] at hcheck
    refine ⟨hcheck.1, ?_⟩
    cases haction : A.action q t with
    | shift target =>
        rw [haction] at hcheck
        exact ⟨target, rfl, item_of_hasItem hcheck.2 ha⟩
    | reduce r' =>
        rw [haction] at hcheck
        cases hcheck.2
    | error =>
        rw [haction] at hcheck
        cases hcheck.2
  goes := by
    intro q r d a p B Xs hitem hrule hdrop
    obtain ⟨ahead, ha, hcheck⟩ := hchecked.entry hitem hrule
    simp only [entryCheck, hrule, hdrop, Bool.and_eq_true, decide_eq_true_eq] at hcheck
    exact ⟨hcheck.1.1, item_of_hasItem hcheck.1.2 ha⟩
  closed := by
    intro q r d a p B Xs hitem hrule hdrop r' p' hrule' hlhs b hb
    obtain ⟨ahead, ha, hcheck⟩ := hchecked.entry hitem hrule
    simp only [entryCheck, hrule, hdrop, Bool.and_eq_true, List.all_eq_true] at hcheck
    have hproduction := hchecked.rules r' (hnumbers r' p' hrule')
    simp only [ruleCheck, hrule', Bool.and_eq_true, decide_eq_true_eq, hlhs] at hproduction
    exact item_of_hasItem (hcheck.2 r' hproduction.1.1.1) (testBit_startsMask hb ha)
  reduces := by
    intro q r d a p hitem hrule hdrop
    obtain ⟨ahead, ha, hcheck⟩ := hchecked.entry hitem hrule
    simp only [entryCheck, hrule, hdrop] at hcheck
    cases hquick : A.quick q with
    | reduce r' =>
        rw [hquick] at hcheck
        exact .inl (congrArg Quick.reduce (beq_iff_eq.mp hcheck))
    | error =>
        rw [hquick] at hcheck
        cases hcheck
    | look =>
        rw [hquick] at hcheck
        simp only [List.all_eq_true, Bool.or_eq_true, Bool.not_eq_true', decide_eq_true_eq] at hcheck
        refine .inr ⟨rfl, (hcheck a (htokens a)).resolve_left ?_⟩
        rw [ha]
        exact Bool.noConfusion

end Checked

end Soundness

end Certificate

end LR
